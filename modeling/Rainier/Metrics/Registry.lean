import Mathlib.Algebra.Order.Ring.Nat
import Rainier.Support.Text

/-! # The metrics registry

Counters, gauges and histograms by name, each with a series for every label set, and the text in
which they are scraped.
-/
namespace Rainier.Metrics

/-- `f64` as it is formatted: whether it is infinite and positive, its integer where it is one of
magnitude below `1e15`, and what `Display` writes. -/
structure Floats (F : Type) where
  infinite : F → Option Bool
  integral : F → Option ℤ
  display : F → String
  display_ne : ∀ x, display x ≠ ""
  /-- No exponent is ever written, and `NaN` for what is no number. -/
  display_plain : ∀ x, ∀ c ∈ (display x).toList, Text.isDigit c = true ∨ c ∈ ['-','.','N','a']

/-- A label set: a map, in the order of its keys. -/
structure Labels where
  pairs : List (String × String)
  sorted : pairs.Pairwise fun a b => a.1 < b.1

inductive Kind where
  | counter
  | gauge
  | histogram
  deriving DecidableEq, Repr

def Kind.asStr : Kind → String
  | .counter => "counter"
  | .gauge => "gauge"
  | .histogram => "histogram"

/-- What has been recorded for one label set. -/
structure Series (F : Type) where
  value : F
  buckets : List ℕ
  sum : F
  count : ℕ

/-- One series for each label set, with as many buckets as the metric has boundaries. -/
structure Metric (F : Type) where
  kind : Kind
  help : String
  buckets : List F
  series : List (Labels × Series F)
  distinct : (series.map fun s => s.1.pairs).Nodup
  sized : ∀ s ∈ series, s.2.buckets.length = buckets.length

structure Registry (F : Type) where
  metrics : List (String × Metric F)
  distinct : (metrics.map Prod.fst).Nodup

variable {F : Type} (f : Floats F)

def formatValue (value : F) : String :=
  match f.infinite value with
  | some true => "+Inf"
  | some false => "-Inf"
  | none =>
    match f.integral value with
    | some n => n.repr
    | none => f.display value

/-- `str::replace` of a character. -/
def replaceChar (c : Char) (text : List Char) (s : List Char) : List Char := s.flatMap fun d => if d = c then text else [d]

def escape (value : List Char) : List Char :=
  replaceChar '\n' ['\\','n'] (replaceChar '"' ['\\','"'] (replaceChar '\\' ['\\','\\'] value))

/-- `[String]::join` with a comma. -/
def joinPairs : List (List Char) → List Char
  | [] => []
  | [pair] => pair
  | pair :: next :: rest => pair ++ ',' :: joinPairs (next :: rest)

def quoted (key : String) (value : List Char) : List Char := key.toList ++ '=' :: '"' :: (value ++ ['"'])

def renderLabels (labels : Labels) (extra : Option (String × String)) : List Char :=
  if labels.pairs.isEmpty ∧ extra.isNone then []
  else
    let pairs := labels.pairs.map fun pair => quoted pair.1 (escape pair.2.toList)
    let pairs := match extra with
      | some (key,value) => pairs ++ [quoted key value.toList]
      | none => pairs
    '{' :: (joinPairs pairs ++ ['}'])

/-- A line with a sample. -/
def sampleLine (name : String) (labels : Labels) (extra : Option (String × String)) (value : String) : List Char :=
  name.toList ++ (renderLabels labels extra ++ ' ' :: value.toList)

/-- One line for each bucket, then the sum and the count. -/
def renderHistogram (name : String) (labels : Labels) (series : Series F) (buckets : List F) : List (List Char) :=
  ((buckets.zip series.buckets).map fun bucket =>
      sampleLine (name ++ "_bucket") labels (some ("le",formatValue f bucket.1)) bucket.2.repr) ++
    [sampleLine (name ++ "_bucket") labels (some ("le","+Inf")) series.count.repr,
      sampleLine (name ++ "_sum") labels none (formatValue f series.sum),
      sampleLine (name ++ "_count") labels none series.count.repr]

def renderSeries (name : String) (metric : Metric F) (series : Labels × Series F) : List (List Char) :=
  match metric.kind with
  | .histogram => renderHistogram f name series.1 series.2 metric.buckets
  | _ => [sampleLine name series.1 none (formatValue f series.2.value)]

def renderMetric (name : String) (metric : Metric F) : List (List Char) :=
  ("# HELP " ++ name ++ " " ++ metric.help).toList :: ("# TYPE " ++ name ++ " " ++ metric.kind.asStr).toList ::
    metric.series.flatMap (renderSeries f name metric)

def renderLines (r : Registry F) : List (List Char) := r.metrics.flatMap fun entry => renderMetric f entry.1 entry.2

def render (r : Registry F) : String := String.ofList ((renderLines f r).flatMap fun line => line ++ ['\n'])

/-! ## Formatted values -/

section Formatted

variable {f}

/-- A character that ends nothing. -/
def Plain (c : Char) : Prop := Text.isDigit c = true ∨ c ∈ ['-','+','.','N','a','I','n','f']

theorem formatValue_ne (value : F) : (formatValue f value).toList ≠ [] := by
  rw [formatValue]
  split
  · decide
  · decide
  · split
    · next n _ =>
      cases n with
      | ofNat n =>
        have hlist : (Int.ofNat n).repr.toList = Nat.toDigits 10 n := Nat.toList_repr
        rw [hlist]
        intro hnil
        have hdigits := Text.digits_toDigits n
        rw [hnil] at hdigits
        cases hdigits
      | negSucc n =>
        intro hnil
        have hlist : (Int.negSucc n).repr.toList = '-' :: (n + 1).repr.toList := by
          change ("-" ++ (n + 1).repr).toList = _
          simp
        rw [hlist] at hnil
        cases hnil
    · exact fun hnil => f.display_ne value (String.toList_eq_nil_iff.1 hnil)

theorem plain_repr (n : ℕ) : ∀ c ∈ n.repr.toList, Plain c := by
  intro c hc
  rw [Nat.toList_repr] at hc
  exact .inl (Text.isDigit_of_mem_toDigits hc)

theorem repr_ne (n : ℕ) : n.repr.toList ≠ [] := by
  intro hnil
  have hdigits := Text.digits_toDigits n
  rw [← Nat.toList_repr,hnil] at hdigits
  cases hdigits

theorem plain_infinite {text : String} (h : text = "+Inf" ∨ text = "-Inf") : ∀ c ∈ text.toList, Plain c := by
  intro c hc
  obtain rfl | rfl := h
  · have hchars : c = '+' ∨ c = 'I' ∨ c = 'n' ∨ c = 'f' := by simpa using hc
    obtain rfl | rfl | rfl | rfl := hchars <;> simp [Plain]
  · have hchars : c = '-' ∨ c = 'I' ∨ c = 'n' ∨ c = 'f' := by simpa using hc
    obtain rfl | rfl | rfl | rfl := hchars <;> simp [Plain]

theorem plain_formatValue (value : F) : ∀ c ∈ (formatValue f value).toList, Plain c := by
  rw [formatValue]
  split
  · exact plain_infinite (by decide)
  · exact plain_infinite (by decide)
  · split
    · next n _ =>
      cases n with
      | ofNat n => exact plain_repr n
      | negSucc n =>
        have hlist : (Int.negSucc n).repr.toList = '-' :: (n + 1).repr.toList := by
          change ("-" ++ (n + 1).repr).toList = _
          simp
        rw [hlist]
        intro c hc
        obtain rfl | hc := List.mem_cons.1 hc
        · exact .inr (by decide)
        · exact plain_repr (n + 1) c hc
    · intro c hc
      obtain hdigit | hsign := f.display_plain value c hc
      · exact .inl hdigit
      · right
        simp only [List.mem_cons,List.not_mem_nil,or_false] at hsign ⊢
        tauto

end Formatted

end Rainier.Metrics
