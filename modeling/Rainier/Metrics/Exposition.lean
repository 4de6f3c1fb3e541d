import Mathlib.Data.List.Pairwise
import Rainier.Metrics.Registry
import Rainier.Support.Split

/-! # What is scraped

A reader of the text format, line by line, and what it makes of a rendered registry: the samples that
were recorded, each under its own name and labels.
-/
namespace Rainier.Metrics

/-! ## The text format -/

def isNameStart (c : Char) : Bool := ('a' ≤ c && c ≤ 'z') || ('A' ≤ c && c ≤ 'Z') || c == '_' || c == ':'

def isNameChar (c : Char) : Bool := isNameStart c || Text.isDigit c

/-- A label name has no colon. -/
def isLabelStart (c : Char) : Bool := isNameStart c && c != ':'

def isLabelChar (c : Char) : Bool := isNameChar c && c != ':'

def isBlank (c : Char) : Bool := c == ' ' || c == '\t'

structure Sample where
  name : String
  labels : List (String × String)
  value : String
  deriving DecidableEq, Repr

/-- A name at the beginning, and what is behind it. -/
def readName (start inner : Char → Bool) : List Char → Option (String × List Char)
  | [] => none
  | c :: cs => if start c then some (String.ofList (c :: cs.takeWhile inner),cs.dropWhile inner) else none

/-- A label value up to its closing quote, with the three escapes there are. -/
def readString : List Char → Option (List Char × List Char)
  | [] => none
  | '"' :: rest => some ([],rest)
  | '\\' :: c :: rest =>
    if c = '\\' ∨ c = '"' then (readString rest).map fun parts => (c :: parts.1,parts.2)
    else if c = 'n' then (readString rest).map fun parts => ('\n' :: parts.1,parts.2)
    else none
  | c :: rest => if c = '\\' then none else (readString rest).map fun parts => (c :: parts.1,parts.2)

def skipBlanks (cs : List Char) : List Char := cs.dropWhile isBlank

/-- One label, and what is behind it. -/
def readLabel (cs : List Char) : Option ((String × String) × List Char) :=
  match readName isLabelStart isLabelChar (skipBlanks cs) with
  | none => none
  | some (key,rest) =>
    match skipBlanks rest with
    | '=' :: rest =>
      match skipBlanks rest with
      | '"' :: rest => (readString rest).map fun parts => ((key,String.ofList parts.1),skipBlanks parts.2)
      | _ => none
    | _ => none

/-- The labels up to the closing brace, a comma behind the last one being allowed. -/
def readLabels : ℕ → List Char → Option (List (String × String) × List Char)
  | 0, _ => none
  | n + 1, cs =>
    match skipBlanks cs with
    | '}' :: rest => some ([],rest)
    | _ =>
      match readLabel cs with
      | some (label,'}' :: rest) => some ([label],rest)
      | some (label,',' :: rest) => (readLabels n rest).map fun parts => (label :: parts.1,parts.2)
      | _ => none

/-- A value, and a timestamp behind it if there is one. -/
def readValue (cs : List Char) : Option String :=
  let value := (skipBlanks cs).takeWhile fun c => !isBlank c
  let rest := skipBlanks ((skipBlanks cs).dropWhile fun c => !isBlank c)
  if value = [] then none
  else if rest = [] then some (String.ofList value)
  else
    match Text.parseInt (-2 ^ 63) (2 ^ 63 - 1) (String.ofList (rest.takeWhile fun c => !isBlank c)) with
    | some _ => if skipBlanks (rest.dropWhile fun c => !isBlank c) = [] then some (String.ofList value) else none
    | none => none

/-- Labels, where there is a brace, and the rest of the line. -/
def readBraces (cs : List Char) : Option (List (String × String) × List Char) :=
  match skipBlanks cs with
  | '{' :: rest => readLabels (rest.length + 1) rest
  | _ => some ([],cs)

def readSample (cs : List Char) : Option Sample :=
  match readName isNameStart isNameChar cs with
  | none => none
  | some (name,rest) =>
    match readBraces rest with
    | none => none
    | some (labels,rest) => (readValue rest).map fun value => ⟨name,labels,value⟩

/-- A line: nothing where it is empty or a comment. -/
def readLine (line : List Char) : Option (Option Sample) :=
  match skipBlanks line with
  | [] => some none
  | '#' :: _ => some none
  | cs => (readSample cs).map some

def readLines : List (List Char) → Option (List Sample)
  | [] => some []
  | line :: rest =>
    match readLine line with
    | none => none
    | some none => readLines rest
    | some (some sample) => (readLines rest).map fun samples => sample :: samples

def read (text : String) : Option (List Sample) := readLines ((Text.split '\n' text).map String.toList)

/-! ## What is recorded -/

variable {F : Type} (f : Floats F)

def histogramSamples (name : String) (labels : Labels) (series : Series F) (buckets : List F) : List Sample :=
  ((buckets.zip series.buckets).map fun bucket =>
      ⟨name ++ "_bucket",labels.pairs ++ [("le",formatValue f bucket.1)],bucket.2.repr⟩) ++
    [⟨name ++ "_bucket",labels.pairs ++ [("le","+Inf")],series.count.repr⟩,
      ⟨name ++ "_sum",labels.pairs,formatValue f series.sum⟩,
      ⟨name ++ "_count",labels.pairs,series.count.repr⟩]

/-- One sample for a counter or a gauge, those of the buckets, the sum and the count for a histogram. -/
def seriesSamples (name : String) (metric : Metric F) (series : Labels × Series F) : List Sample :=
  match metric.kind with
  | .histogram => histogramSamples f name series.1 series.2 metric.buckets
  | _ => [⟨name,series.1.pairs,formatValue f series.2.value⟩]

def samples (r : Registry F) : List Sample :=
  r.metrics.flatMap fun entry => entry.2.series.flatMap (seriesSamples f entry.1 entry.2)

/-- A name of the grammar. -/
def IsName (start inner : Char → Bool) (name : String) : Prop :=
  ∃ c cs, name.toList = c :: cs ∧ start c = true ∧ ∀ d ∈ cs, inner d = true

/-- The names and label keys follow the grammar, and no help text breaks a line. -/
structure WellNamed (r : Registry F) : Prop where
  names : ∀ entry ∈ r.metrics, IsName isNameStart isNameChar entry.1
  help : ∀ entry ∈ r.metrics, '\n' ∉ entry.2.help.toList
  keys : ∀ entry ∈ r.metrics, ∀ series ∈ entry.2.series, ∀ pair ∈ series.1.pairs, IsName isLabelStart isLabelChar pair.1

/-- No name and no label is mistaken for what a histogram adds. -/
structure Unmistakable (r : Registry F) : Prop where
  le : ∀ entry ∈ r.metrics, ∀ series ∈ entry.2.series, ∀ pair ∈ series.1.pairs, pair.1 ≠ "le"
  names : ∀ entry ∈ r.metrics, entry.2.kind = .histogram → ∀ other ∈ r.metrics,
    ∀ ending ∈ ["_bucket","_sum","_count"], other.1 ≠ entry.1 ++ ending

/-- The samples of two series are never of the same name and the same label map. -/
def Apart (r : Registry F) : Prop := ∀ entry ∈ r.metrics, ∀ series ∈ entry.2.series, ∀ entry' ∈ r.metrics, ∀ series' ∈ entry'.2.series,
  ∀ sample ∈ seriesSamples f entry.1 entry.2 series, ∀ sample' ∈ seriesSamples f entry'.1 entry'.2 series',
    sample.name = sample'.name → sample.labels.Perm sample'.labels → entry.1 = entry'.1 ∧ series.1.pairs = series'.1.pairs

/-! ## Reading what was rendered -/

section Reading

variable {f} {rest : List Char} {name : String} {start inner : Char → Bool}

theorem skipBlanks_cons {c : Char} (hc : isBlank c = false) : skipBlanks (c :: rest) = c :: rest := by
  rw [skipBlanks,List.dropWhile_cons_of_neg (by simp [hc])]

/-- A name is read to its end. -/
theorem readName_append (h : IsName start inner name) (hrest : ∀ c ∈ rest.head?, inner c = false) :
    readName start inner (name.toList ++ rest) = some (name,rest) := by
  obtain ⟨c,cs,hname,hstart,hinner⟩ := h
  have htake : (cs ++ rest).takeWhile inner = cs := by
    rw [List.takeWhile_append_of_pos hinner]
    cases rest with
    | nil => simp
    | cons d rest => simp [hrest d rfl]
  have hdrop : (cs ++ rest).dropWhile inner = rest := by
    rw [List.dropWhile_append_of_pos hinner]
    exact Text.dropWhile_eq_self hrest
  rw [hname,List.cons_append,readName,if_pos hstart,htake,hdrop,← hname,String.ofList_toList]

/-! ### Escapes -/

theorem escape_cons (c : Char) (v : List Char) : escape (c :: v) = escape [c] ++ escape v := by
  simp only [escape,replaceChar,List.flatMap_cons,List.flatMap_nil,List.append_nil,List.flatMap_append]

/-- What is escaped is read as it was, up to the quote behind it. -/
theorem readString_escape (v : List Char) : readString (escape v ++ '"' :: rest) = some (v,rest) := by
  induction v with
  | nil => rfl
  | cons c v ih =>
    rw [escape_cons,List.append_assoc]
    by_cases hslash : c = '\\'
    · subst hslash
      have hesc : escape ['\\'] = ['\\','\\'] := by decide
      rw [hesc]
      simp [readString,ih]
    · by_cases hquote : c = '"'
      · subst hquote
        have hesc : escape ['"'] = ['\\','"'] := by decide
        rw [hesc]
        simp [readString,ih]
      · by_cases hbreak : c = '\n'
        · subst hbreak
          have hesc : escape ['\n'] = ['\\','n'] := by decide
          rw [hesc]
          simp [readString,ih]
        · have hesc : escape [c] = [c] := by simp [escape,replaceChar,hslash,hquote,hbreak]
          rw [hesc,List.singleton_append,readString]
          · rw [if_neg hslash,ih]
            rfl
          · exact hquote
          · exact fun _ _ h _ => hslash h

theorem break_free_escape (v : List Char) : '\n' ∉ escape v := by
  induction v with
  | nil => exact List.not_mem_nil
  | cons c v ih =>
    rw [escape_cons,List.mem_append]
    rintro (h | h)
    · by_cases hslash : c = '\\'
      · subst hslash
        exact absurd h (by decide)
      · by_cases hquote : c = '"'
        · subst hquote
          exact absurd h (by decide)
        · by_cases hbreak : c = '\n'
          · subst hbreak
            exact absurd h (by decide)
          · have hesc : escape [c] = [c] := by simp [escape,replaceChar,hslash,hquote,hbreak]
            rw [hesc,List.mem_singleton] at h
            exact hbreak h.symm
    · exact ih h

/-- A value without anything to escape is read as it is. -/
theorem readString_plain {v : List Char} (h : ∀ c ∈ v, Plain c) : readString (v ++ '"' :: rest) = some (v,rest) := by
  have hesc : escape v = v := by
    induction v with
    | nil => rfl
    | cons c v ih =>
      have hc : Plain c := h c List.mem_cons_self
      have hslash : c ≠ '\\' := by
        rintro rfl
        exact absurd hc (by simp [Plain,Text.isDigit])
      have hquote : c ≠ '"' := by
        rintro rfl
        exact absurd hc (by simp [Plain,Text.isDigit])
      have hbreak : c ≠ '\n' := by
        rintro rfl
        exact absurd hc (by simp [Plain,Text.isDigit])
      rw [escape_cons,ih fun d hd => h d (List.mem_cons_of_mem _ hd)]
      simp [escape,replaceChar,hslash,hquote,hbreak]
  rw [← hesc,readString_escape,hesc]

/-! ### Labels -/

/-- A text between quotes that is read as the value. -/
def Written (text : List Char) (value : String) : Prop :=
  (∀ rest, readString (text ++ '"' :: rest) = some (value.toList,rest)) ∧ '\n' ∉ text

theorem written_escape (value : String) : Written (escape value.toList) value :=
  ⟨fun _ => readString_escape value.toList,break_free_escape value.toList⟩

theorem break_not_plain : ¬ Plain '\n' := by simp [Plain,Text.isDigit]

theorem written_plain {value : String} (h : ∀ c ∈ value.toList, Plain c) : Written value.toList value :=
  ⟨fun _ => readString_plain h,fun hmem => break_not_plain (h _ hmem)⟩

theorem not_blank_of_labelStart {c : Char} (h : isLabelStart c = true) : isBlank c = false ∧ c ≠ '}' := by
  constructor
  · by_contra hblank
    have hchar : c = ' ' ∨ c = '\t' := by simpa [isBlank,or_iff_not_imp_left] using hblank
    obtain rfl | rfl := hchar
    · exact absurd h (by decide)
    · exact absurd h (by decide)
  · rintro rfl
    exact absurd h (by decide)

variable {key value : String} {text : List Char}

theorem readLabel_quoted (hkey : IsName isLabelStart isLabelChar key) (htext : Written text value) :
    readLabel (quoted key text ++ rest) = some ((key,value),skipBlanks rest) := by
  have hskip : skipBlanks (quoted key text ++ rest) = key.toList ++ '=' :: '"' :: (text ++ '"' :: rest) := by
    obtain ⟨c,cs,hlist,hstart,-⟩ := hkey
    rw [quoted,hlist]
    simp [skipBlanks_cons (not_blank_of_labelStart hstart).1]
  rw [readLabel,hskip,readName_append hkey (by simp; decide)]
  simp only [skipBlanks_cons (c := '=') (by decide),skipBlanks_cons (c := '"') (by decide),htext.1,Option.map_some,
    String.ofList_toList]

/-- A label is no end of the labels. -/
theorem readLabels_step (hkey : IsName isLabelStart isLabelChar key) (n : ℕ) :
    readLabels (n + 1) (quoted key text ++ rest) = match readLabel (quoted key text ++ rest) with
      | some (label,'}' :: rest) => some ([label],rest)
      | some (label,',' :: rest) => (readLabels n rest).map fun parts => (label :: parts.1,parts.2)
      | _ => none := by
  obtain ⟨c,cs,hlist,hstart,-⟩ := hkey
  obtain ⟨hblank,hbrace⟩ := not_blank_of_labelStart hstart
  have hskip : skipBlanks (quoted key text ++ rest) = c :: (cs ++ '=' :: '"' :: (text ++ '"' :: rest)) := by
    rw [quoted,hlist]
    simp [skipBlanks_cons hblank]
  rw [readLabels,hskip]
  split
  · next heq => exact absurd (List.cons.inj heq).1 hbrace
  · rfl

/-- A label with the text that it is written as. -/
structure WrittenLabel where
  key : String
  text : List Char
  value : String
  key_name : IsName isLabelStart isLabelChar key
  written : Written text value

def WrittenLabel.line (label : WrittenLabel) : List Char := quoted label.key label.text

def WrittenLabel.pair (label : WrittenLabel) : String × String := (label.key,label.value)

theorem readLabels_join {labels : List WrittenLabel} (hne : labels ≠ []) {n : ℕ} (hn : labels.length ≤ n) :
    readLabels n (joinPairs (labels.map WrittenLabel.line) ++ '}' :: rest) = some (labels.map WrittenLabel.pair,rest) := by
  induction labels generalizing n with
  | nil => exact absurd rfl hne
  | cons label labels ih =>
    cases n with
    | zero => simp at hn
    | succ n =>
      cases labels with
      | nil =>
        rw [List.map_singleton,joinPairs,WrittenLabel.line,readLabels_step label.key_name,
          readLabel_quoted label.key_name label.written,skipBlanks_cons (by decide)]
        rfl
      | cons next labels =>
        have hrest := ih (List.cons_ne_nil next labels) (n := n) (by simpa using hn)
        rw [List.map_cons] at hrest
        rw [List.map_cons,List.map_cons,joinPairs,List.append_assoc,List.cons_append,WrittenLabel.line,
          readLabels_step label.key_name,readLabel_quoted label.key_name label.written,skipBlanks_cons (by decide)]
        simp only [hrest]
        rfl

/-! ### Lines -/

theorem exists_written_pairs {pairs : List (String × String)} (hkeys : ∀ pair ∈ pairs, IsName isLabelStart isLabelChar pair.1) :
    ∃ written : List WrittenLabel, written.map WrittenLabel.pair = pairs ∧
      written.map WrittenLabel.line = pairs.map fun pair => quoted pair.1 (escape pair.2.toList) := by
  induction pairs with
  | nil => exact ⟨[],rfl,rfl⟩
  | cons pair pairs ih =>
    obtain ⟨written,hpairs,hlines⟩ := ih fun other hother => hkeys other (List.mem_cons_of_mem _ hother)
    refine ⟨⟨pair.1,_,pair.2,hkeys pair List.mem_cons_self,written_escape pair.2⟩ :: written,?_,?_⟩
    · rw [List.map_cons,hpairs]
      rfl
    · rw [List.map_cons,List.map_cons,hlines]
      rfl

/-- The labels of a series, and the one that is added. -/
theorem exists_written (labels : Labels) (hkeys : ∀ pair ∈ labels.pairs, IsName isLabelStart isLabelChar pair.1)
    (extra : Option (String × String)) (hextra : ∀ pair ∈ extra, IsName isLabelStart isLabelChar pair.1 ∧ ∀ c ∈ pair.2.toList, Plain c) :
    ∃ written : List WrittenLabel, written.map WrittenLabel.pair = labels.pairs ++ extra.toList ∧
      renderLabels labels extra = if written = [] then [] else '{' :: (joinPairs (written.map WrittenLabel.line) ++ ['}']) := by
  obtain ⟨written,hpairs,hlines⟩ := exists_written_pairs hkeys
  cases extra with
  | none =>
    refine ⟨written,by rw [hpairs]; exact (List.append_nil _).symm,?_⟩
    rw [renderLabels,← hlines,← hpairs]
    cases written with
    | nil => rfl
    | cons label written => simp
  | some pair =>
    obtain ⟨hkey,hplain⟩ := hextra pair rfl
    let last : WrittenLabel := ⟨pair.1,_,pair.2,hkey,written_plain hplain⟩
    refine ⟨written ++ [last],?_,?_⟩
    · rw [List.map_append,hpairs]
      rfl
    · rw [renderLabels,if_neg (by simp),if_neg (by simp),List.map_append,hlines]
      rfl

theorem break_free_quoted (label : WrittenLabel) : '\n' ∉ label.line := by
  obtain ⟨c,cs,hlist,hstart,hinner⟩ := label.key_name
  have hkey : '\n' ∉ label.key.toList := by
    rw [hlist,List.mem_cons]
    rintro (rfl | hmem)
    · exact absurd hstart (by decide)
    · exact absurd (hinner _ hmem) (by decide)
  have htext := label.written.2
  rw [WrittenLabel.line,quoted]
  simp [hkey,htext]

theorem break_free_join {pairs : List (List Char)} (h : ∀ pair ∈ pairs, '\n' ∉ pair) : '\n' ∉ joinPairs pairs := by
  induction pairs with
  | nil => exact List.not_mem_nil
  | cons pair pairs ih =>
    have hpair := h pair List.mem_cons_self
    have hrest := ih fun other hother => h other (List.mem_cons_of_mem _ hother)
    cases pairs with
    | nil => exact hpair
    | cons next pairs =>
      rw [joinPairs]
      simp [hpair,hrest]

theorem length_le_joinPairs (pairs : List (List Char)) : pairs.length ≤ (joinPairs pairs).length + 1 := by
  induction pairs with
  | nil => simp
  | cons pair pairs ih =>
    cases pairs with
    | nil => simp
    | cons next pairs =>
      simp only [joinPairs,List.length_append,List.length_cons] at ih ⊢
      omega

/-- A value behind the blank in front of it. -/
theorem readValue_plain (hne : value.toList ≠ []) (hvalue : ∀ c ∈ value.toList, Plain c) :
    readValue (' ' :: value.toList) = some value := by
  have hblank : ∀ c ∈ value.toList, isBlank c = false := by
    intro c hc
    by_contra hblank
    have hchar : c = ' ' ∨ c = '\t' := by simpa [isBlank,or_iff_not_imp_left] using hblank
    obtain rfl | rfl := hchar
    · exact absurd (hvalue _ hc) (by simp [Plain,Text.isDigit])
    · exact absurd (hvalue _ hc) (by simp [Plain,Text.isDigit])
  have hskip : skipBlanks (' ' :: value.toList) = value.toList := by
    rw [skipBlanks,List.dropWhile_cons_of_pos (by decide)]
    exact Text.dropWhile_eq_self fun c hc => hblank c (List.mem_of_mem_head? hc)
  have htake : value.toList.takeWhile (fun c => !isBlank c) = value.toList := by
    rw [List.takeWhile_eq_self_iff]
    intro c hc
    rw [hblank c hc]
    rfl
  have hdrop : value.toList.dropWhile (fun c => !isBlank c) = [] := by
    rw [List.dropWhile_eq_nil_iff]
    intro c hc
    rw [hblank c hc]
    rfl
  rw [readValue,hskip,htake,hdrop]
  rw [if_neg hne,skipBlanks,List.dropWhile_nil,if_pos rfl,String.ofList_toList]

theorem readSample_sampleLine (hname : IsName isNameStart isNameChar name) (labels : Labels)
    (hkeys : ∀ pair ∈ labels.pairs, IsName isLabelStart isLabelChar pair.1) (extra : Option (String × String))
    (hextra : ∀ pair ∈ extra, IsName isLabelStart isLabelChar pair.1 ∧ ∀ c ∈ pair.2.toList, Plain c)
    (hne : value.toList ≠ []) (hvalue : ∀ c ∈ value.toList, Plain c) :
    readSample (sampleLine name labels extra value) = some ⟨name,labels.pairs ++ extra.toList,value⟩ ∧
      '\n' ∉ sampleLine name labels extra value := by
  obtain ⟨written,hpairs,hrender⟩ := exists_written labels hkeys extra hextra
  have hvalueBreak : '\n' ∉ value.toList := fun hmem => break_not_plain (hvalue _ hmem)
  have hnameBreak : '\n' ∉ name.toList := by
    obtain ⟨c,cs,hlist,hstart,hinner⟩ := hname
    rw [hlist,List.mem_cons]
    rintro (rfl | hmem)
    · exact absurd hstart (by decide)
    · exact absurd (hinner _ hmem) (by decide)
  rw [sampleLine,hrender]
  by_cases hempty : written = []
  · have hbraces : readBraces (' ' :: value.toList) = some ([],' ' :: value.toList) := by
      rw [readBraces]
      split
      · next tail hskip =>
        have hmem : '{' ∈ ' ' :: value.toList := (List.dropWhile_sublist isBlank).subset (by
          change '{' ∈ skipBlanks (' ' :: value.toList)
          rw [hskip]
          exact List.mem_cons_self)
        obtain hspace | hmem := List.mem_cons.1 hmem
        · exact absurd hspace (by decide)
        · exact absurd (hvalue _ hmem) (by simp [Plain,Text.isDigit])
      · rfl
    rw [if_pos hempty,List.nil_append,← hpairs,hempty]
    constructor
    · rw [readSample,readName_append hname (by simp; decide)]
      dsimp only
      rw [hbraces]
      dsimp only
      rw [readValue_plain hne hvalue]
      rfl
    · simp [hnameBreak,hvalueBreak]
  · rw [if_neg hempty,← hpairs]
    have hinside : '\n' ∉ joinPairs (written.map WrittenLabel.line) := by
      apply break_free_join
      intro line hline
      obtain ⟨label,-,rfl⟩ := List.mem_map.1 hline
      exact break_free_quoted label
    have hbraces : readBraces ('{' :: (joinPairs (written.map WrittenLabel.line) ++ ['}']) ++ ' ' :: value.toList) =
        some (written.map WrittenLabel.pair,' ' :: value.toList) := by
      rw [readBraces,List.cons_append,skipBlanks_cons (by decide),List.append_assoc,List.singleton_append]
      apply readLabels_join hempty
      have hlength := length_le_joinPairs (written.map WrittenLabel.line)
      rw [List.length_map] at hlength
      rw [List.length_append]
      omega
    constructor
    · rw [readSample,readName_append hname (by simp; decide)]
      dsimp only
      rw [hbraces]
      dsimp only
      rw [readValue_plain hne hvalue]
      rfl
    · simp [hnameBreak,hvalueBreak,hinside]

theorem readLine_sampleLine (hname : IsName isNameStart isNameChar name) (labels : Labels)
    (hkeys : ∀ pair ∈ labels.pairs, IsName isLabelStart isLabelChar pair.1) (extra : Option (String × String))
    (hextra : ∀ pair ∈ extra, IsName isLabelStart isLabelChar pair.1 ∧ ∀ c ∈ pair.2.toList, Plain c)
    (hne : value.toList ≠ []) (hvalue : ∀ c ∈ value.toList, Plain c) :
    readLine (sampleLine name labels extra value) = some (some ⟨name,labels.pairs ++ extra.toList,value⟩) := by
  have hsample := (readSample_sampleLine hname labels hkeys extra hextra hne hvalue).1
  obtain ⟨c,cs,hlist,hstart,-⟩ := hname
  have hblank : isBlank c = false := by
    by_contra hblank
    have hchar : c = ' ' ∨ c = '\t' := by simpa [isBlank,or_iff_not_imp_left] using hblank
    obtain rfl | rfl := hchar
    · exact absurd hstart (by decide)
    · exact absurd hstart (by decide)
  have hline : sampleLine name labels extra value = c :: (cs ++ (renderLabels labels extra ++ ' ' :: value.toList)) := by
    rw [sampleLine,hlist]
    rfl
  rw [hline] at hsample ⊢
  rw [readLine,skipBlanks_cons hblank]
  split
  · next heq => cases heq
  · next heq =>
    rw [(List.cons.inj heq).1] at hstart
    exact absurd hstart (by decide)
  · rw [hsample]
    rfl

/-! ### Texts of several lines -/

/-- Lines that are read as the samples, none of them with a line break in it. -/
structure ReadAs (lines : List (List Char)) (samples : List Sample) : Prop where
  read : readLines lines = some samples
  break_free : ∀ line ∈ lines, '\n' ∉ line

theorem ReadAs.nil : ReadAs [] [] := ⟨rfl,by simp⟩

variable {lines lines' : List (List Char)} {samples samples' : List Sample} {line : List Char} {sample : Sample}

theorem ReadAs.comment (hline : readLine line = some none) (hfree : '\n' ∉ line) (h : ReadAs lines samples) :
    ReadAs (line :: lines) samples := by
  refine ⟨by rw [readLines,hline]; exact h.read,?_⟩
  intro other hother
  obtain rfl | hother := List.mem_cons.1 hother
  · exact hfree
  · exact h.break_free other hother

theorem ReadAs.cons (hline : readLine line = some (some sample)) (hfree : '\n' ∉ line) (h : ReadAs lines samples) :
    ReadAs (line :: lines) (sample :: samples) := by
  refine ⟨by rw [readLines,hline,h.read]; rfl,?_⟩
  intro other hother
  obtain rfl | hother := List.mem_cons.1 hother
  · exact hfree
  · exact h.break_free other hother

theorem ReadAs.append (h : ReadAs lines samples) (h' : ReadAs lines' samples') : ReadAs (lines ++ lines') (samples ++ samples') := by
  induction lines generalizing samples with
  | nil =>
    obtain rfl : [] = samples := Option.some.inj h.read
    exact h'
  | cons line lines ih =>
    have hrest : ∀ other ∈ lines, '\n' ∉ other := fun other hother => h.break_free other (List.mem_cons_of_mem _ hother)
    have hfree := h.break_free line List.mem_cons_self
    have hread := h.read
    rw [readLines] at hread
    cases hline : readLine line with
    | none => simp [hline] at hread
    | some found =>
      cases found with
      | none =>
        rw [hline] at hread
        exact ReadAs.comment hline hfree (ih ⟨hread,hrest⟩)
      | some sample =>
        rw [hline] at hread
        obtain ⟨others,hothers,rfl⟩ := Option.map_eq_some_iff.1 hread
        exact ReadAs.cons hline hfree (ih ⟨hothers,hrest⟩)

theorem ReadAs.flatMap {ι : Type} {items : List ι} {text : ι → List (List Char)} {found : ι → List Sample}
    (h : ∀ item ∈ items, ReadAs (text item) (found item)) : ReadAs (items.flatMap text) (items.flatMap found) := by
  induction items with
  | nil => exact ReadAs.nil
  | cons item items ih =>
    rw [List.flatMap_cons,List.flatMap_cons]
    exact (h item List.mem_cons_self).append (ih fun other hother => h other (List.mem_cons_of_mem _ hother))

/-- The line break at the end leaves an empty line. -/
theorem ReadAs.whole (h : ReadAs lines samples) :
    Metrics.read (String.ofList (lines.flatMap fun line => line ++ ['\n'])) = some samples := by
  have hjoin : ∀ l : List (List Char), List.intercalate ['\n'] (l ++ [[]]) = l.flatMap fun line => line ++ ['\n'] := by
    intro l
    induction l with
    | nil => rfl
    | cons line l ih =>
      rw [List.flatMap_cons,← ih]
      cases l with
      | nil => simp [List.intercalate]
      | cons next l => simp [List.intercalate_cons_cons]
  have hsplit : (lines.flatMap fun line => line ++ ['\n']).splitOn '\n' = lines ++ [[]] := by
    rw [← hjoin]
    apply List.splitOn_intercalate
    · intro line hline
      obtain hline | hline := List.mem_append.1 hline
      · exact h.break_free line hline
      · rw [List.mem_singleton.1 hline]
        exact List.not_mem_nil
    · simp
  rw [Metrics.read,Text.split,String.toList_ofList,hsplit,List.map_map]
  have hid : String.toList ∘ String.ofList = id := funext fun l => String.toList_ofList
  rw [hid,List.map_id]
  have hlast : ReadAs [[]] [] := ⟨rfl,by simp⟩
  simpa using (h.append hlast).read

/-! ### Series -/

theorem isName_append {ending : String} (hname : IsName start inner name) (hending : ending.toList.all inner = true) :
    IsName start inner (name ++ ending) := by
  obtain ⟨c,cs,hlist,hstart,hinner⟩ := hname
  refine ⟨c,cs ++ ending.toList,by rw [String.toList_append,hlist]; rfl,hstart,?_⟩
  intro d hd
  obtain hd | hd := List.mem_append.1 hd
  · exact hinner d hd
  · exact List.all_eq_true.1 hending d hd

theorem le_isName : IsName isLabelStart isLabelChar "le" := ⟨'l',['e'],rfl,by decide,List.all_eq_true.1 (by decide)⟩

theorem readAs_histogram (hname : IsName isNameStart isNameChar name) (labels : Labels)
    (hkeys : ∀ pair ∈ labels.pairs, IsName isLabelStart isLabelChar pair.1) (series : Series F) (buckets : List F) :
    ReadAs (renderHistogram f name labels series buckets) (histogramSamples f name labels series buckets) := by
  have hbucket : IsName isNameStart isNameChar (name ++ "_bucket") := isName_append hname (by decide)
  have hsum : IsName isNameStart isNameChar (name ++ "_sum") := isName_append hname (by decide)
  have hcount : IsName isNameStart isNameChar (name ++ "_count") := isName_append hname (by decide)
  have hnone : ∀ pair ∈ (none : Option (String × String)), IsName isLabelStart isLabelChar pair.1 ∧ ∀ c ∈ pair.2.toList, Plain c := by simp
  have hline : ∀ {other value : String} {extra : Option (String × String)}, IsName isNameStart isNameChar other →
      (∀ pair ∈ extra, IsName isLabelStart isLabelChar pair.1 ∧ ∀ c ∈ pair.2.toList, Plain c) → value.toList ≠ [] →
      (∀ c ∈ value.toList, Plain c) → ReadAs [sampleLine other labels extra value] [⟨other,labels.pairs ++ extra.toList,value⟩] :=
    fun hother hextra hne hvalue => ReadAs.cons (readLine_sampleLine hother labels hkeys _ hextra hne hvalue)
      (readSample_sampleLine hother labels hkeys _ hextra hne hvalue).2 ReadAs.nil
  have hboundaries : ReadAs ((buckets.zip series.buckets).map fun bucket =>
      sampleLine (name ++ "_bucket") labels (some ("le",formatValue f bucket.1)) bucket.2.repr)
      ((buckets.zip series.buckets).map fun bucket =>
        ⟨name ++ "_bucket",labels.pairs ++ [("le",formatValue f bucket.1)],bucket.2.repr⟩) := by
    rw [List.map_eq_flatMap,List.map_eq_flatMap]
    apply ReadAs.flatMap
    intro bucket _
    apply hline hbucket _ (repr_ne _) (plain_repr _)
    rintro pair ⟨⟩
    exact ⟨le_isName,plain_formatValue bucket.1⟩
  have hall : ReadAs [sampleLine (name ++ "_bucket") labels (some ("le","+Inf")) series.count.repr]
      [⟨name ++ "_bucket",labels.pairs ++ [("le","+Inf")],series.count.repr⟩] := by
    apply hline hbucket _ (repr_ne _) (plain_repr _)
    rintro pair ⟨⟩
    exact ⟨le_isName,plain_infinite (.inl rfl)⟩
  have htotal : ReadAs [sampleLine (name ++ "_sum") labels none (formatValue f series.sum)]
      [⟨name ++ "_sum",labels.pairs,formatValue f series.sum⟩] := by
    have hread := hline hsum hnone (formatValue_ne (f := f) series.sum) (plain_formatValue series.sum)
    simpa using hread
  have hlast : ReadAs [sampleLine (name ++ "_count") labels none series.count.repr]
      [⟨name ++ "_count",labels.pairs,series.count.repr⟩] := by
    have hread := hline hcount hnone (repr_ne series.count) (plain_repr series.count)
    simpa using hread
  exact hboundaries.append (hall.append (htotal.append hlast))

theorem readAs_series (hname : IsName isNameStart isNameChar name) (metric : Metric F) (series : Labels × Series F)
    (hkeys : ∀ pair ∈ series.1.pairs, IsName isLabelStart isLabelChar pair.1) :
    ReadAs (renderSeries f name metric series) (seriesSamples f name metric series) := by
  have hvalue : ReadAs [sampleLine name series.1 none (formatValue f series.2.value)]
      [⟨name,series.1.pairs,formatValue f series.2.value⟩] := by
    refine ReadAs.cons ?_ (readSample_sampleLine hname series.1 hkeys none (by simp) (formatValue_ne _) (plain_formatValue _)).2 ReadAs.nil
    have hread := readLine_sampleLine hname series.1 hkeys none (by simp) (formatValue_ne (f := f) series.2.value) (plain_formatValue _)
    simpa using hread
  rw [renderSeries,seriesSamples]
  cases metric.kind with
  | counter => exact hvalue
  | gauge => exact hvalue
  | histogram => exact readAs_histogram hname series.1 hkeys series.2 metric.buckets

theorem break_free_name (hname : IsName isNameStart isNameChar name) : '\n' ∉ name.toList := by
  obtain ⟨c,cs,hlist,hstart,hinner⟩ := hname
  rw [hlist,List.mem_cons]
  rintro (rfl | hmem)
  · exact absurd hstart (by decide)
  · exact absurd (hinner _ hmem) (by decide)

theorem readAs_metric (hname : IsName isNameStart isNameChar name) (metric : Metric F) (hhelp : '\n' ∉ metric.help.toList)
    (hkeys : ∀ series ∈ metric.series, ∀ pair ∈ series.1.pairs, IsName isLabelStart isLabelChar pair.1) :
    ReadAs (renderMetric f name metric) (metric.series.flatMap (seriesSamples f name metric)) := by
  have hfree := break_free_name hname
  have hkind : '\n' ∉ metric.kind.asStr.toList := by cases metric.kind <;> decide
  refine ReadAs.comment ?_ ?_ (ReadAs.comment ?_ ?_ (ReadAs.flatMap fun series hseries => readAs_series hname metric series (hkeys series hseries)))
  · rw [String.append_assoc,String.append_assoc,String.toList_append]
    rfl
  · simp [String.toList_append,hfree,hhelp]
  · rw [String.append_assoc,String.append_assoc,String.toList_append]
    rfl
  · simp [String.toList_append,hfree,hkind]

theorem readAs_registry {r : Registry F} (h : WellNamed r) : ReadAs (renderLines f r) (Metrics.samples f r) :=
  ReadAs.flatMap fun entry hentry => readAs_metric (h.names entry hentry) entry.2 (h.help entry hentry) (h.keys entry hentry)

end Reading

/-! ## Samples told apart -/

section Distinct

variable {f} {r : Registry F}

theorem labels_eq_of_perm {labels labels' : Labels} (h : labels.pairs.Perm labels'.pairs) : labels.pairs = labels'.pairs :=
  h.eq_of_pairwise (fun _ _ _ _ hlt hgt => absurd hgt (String.lt_asymm hlt)) labels.sorted labels'.sorted

/-- Without the label that a bucket adds. -/
def withoutLe (labels : List (String × String)) : List (String × String) := labels.filter fun pair => pair.1 ≠ "le"

/-- A sample of a series is under the metric's name or that name with an ending, with the series' labels. -/
theorem seriesSamples_name {name : String} {metric : Metric F} {series : Labels × Series F} {sample : Sample}
    (hle : ∀ pair ∈ series.1.pairs, pair.1 ≠ "le") (h : sample ∈ seriesSamples f name metric series) :
    withoutLe sample.labels = series.1.pairs ∧
      (metric.kind ≠ .histogram ∧ sample.name = name ∨
        metric.kind = .histogram ∧ ∃ ending ∈ ["_bucket","_sum","_count"], sample.name = name ++ ending) := by
  have hself : withoutLe series.1.pairs = series.1.pairs := List.filter_eq_self.2 fun pair hpair => by simpa using hle pair hpair
  have hadded : ∀ bound : String, withoutLe (series.1.pairs ++ [("le",bound)]) = series.1.pairs := by
    intro bound
    rw [withoutLe,List.filter_append]
    have hlast : [("le",bound)].filter (fun pair => decide (pair.1 ≠ "le")) = [] := by simp
    rw [hlast,List.append_nil]
    exact hself
  rw [seriesSamples] at h
  cases hkind : metric.kind with
  | counter =>
    rw [hkind] at h
    obtain rfl := List.mem_singleton.1 h
    exact ⟨hself,.inl ⟨by simp,rfl⟩⟩
  | gauge =>
    rw [hkind] at h
    obtain rfl := List.mem_singleton.1 h
    exact ⟨hself,.inl ⟨by simp,rfl⟩⟩
  | histogram =>
    rw [hkind] at h
    obtain h | h := List.mem_append.1 h
    · obtain ⟨bucket,-,rfl⟩ := List.mem_map.1 h
      exact ⟨hadded _,.inr ⟨rfl,"_bucket",by simp,rfl⟩⟩
    · simp only [List.mem_cons,List.not_mem_nil,or_false] at h
      obtain rfl | rfl | rfl := h
      · exact ⟨hadded _,.inr ⟨rfl,"_bucket",by simp,rfl⟩⟩
      · exact ⟨hself,.inr ⟨rfl,"_sum",by simp,rfl⟩⟩
      · exact ⟨hself,.inr ⟨rfl,"_count",by simp,rfl⟩⟩

/-- No two endings agree in their last two characters. -/
theorem ending_eq {name name' ending ending' : String} (hending : ending ∈ ["_bucket","_sum","_count"])
    (hending' : ending' ∈ ["_bucket","_sum","_count"]) (h : name ++ ending = name' ++ ending') : ending = ending' := by
  have htail : ∀ text, ∀ e ∈ ["_bucket","_sum","_count"], (text ++ e).toList.reverse.take 2 = e.toList.reverse.take 2 := by
    intro text e he
    simp only [List.mem_cons,List.not_mem_nil,or_false] at he
    obtain rfl | rfl | rfl := he
    · simp
    · simp
    · simp
  have hdistinct : ∀ e ∈ ["_bucket","_sum","_count"], ∀ e' ∈ ["_bucket","_sum","_count"],
      e.toList.reverse.take 2 = e'.toList.reverse.take 2 → e = e' := by decide
  apply hdistinct ending hending ending' hending'
  rw [← htail name ending hending,h,htail name' ending' hending']

theorem apart (h : Unmistakable r) : Apart f r := by
  intro entry hentry series hseries entry' hentry' series' hseries' sample hsample sample' hsample' hname hlabels
  obtain ⟨hpairs,hunder⟩ := seriesSamples_name (h.le entry hentry series hseries) hsample
  obtain ⟨hpairs',hunder'⟩ := seriesSamples_name (h.le entry' hentry' series' hseries') hsample'
  have hlists : series.1.pairs = series'.1.pairs := by
    apply labels_eq_of_perm
    rw [← hpairs,← hpairs']
    exact hlabels.filter _
  refine ⟨?_,hlists⟩
  obtain ⟨-,hself⟩ | ⟨hkind,ending,hending,hadded⟩ := hunder
  · obtain ⟨-,hself'⟩ | ⟨hkind',ending',hending',hadded'⟩ := hunder'
    · rw [← hself,hname,hself']
    · exact absurd (by rw [← hself,hname,hadded']) (h.names entry' hentry' hkind' entry hentry ending' hending')
  · obtain ⟨-,hself'⟩ | ⟨-,ending',hending',hadded'⟩ := hunder'
    · exact absurd (by rw [← hself',← hname,hadded]) (h.names entry hentry hkind entry' hentry' ending hending)
    · have hsame : entry.1 ++ ending = entry'.1 ++ ending' := by rw [← hadded,hname,hadded']
      obtain rfl := ending_eq hending hending' hsame
      exact (String.append_left_inj ending).1 hsame

end Distinct

/-- What is scraped is what was recorded, series by series. -/
theorem read_render (r : Registry F) (h : WellNamed r) (hapart : Unmistakable r) :
    read (render f r) = some (samples f r) ∧ Apart f r :=
  ⟨(readAs_registry h).whole,apart hapart⟩

def counts : Floats ℕ where
  infinite _ := none
  integral n := some n
  display n := n.repr
  display_ne n hn := repr_ne n (by rw [hn]; rfl)
  display_plain n c hc := by
    rw [Nat.toList_repr] at hc
    exact .inl (Text.isDigit_of_mem_toDigits hc)

/-- A path from a request, and a histogram without labels. -/
def board : Registry ℕ where
  metrics := [("hits",⟨.counter,"Requests.",[],[(⟨[("path","/\" 1\nhits")],by simp⟩,⟨3,[],0,0⟩)],by simp,by simp⟩),
    ("wait",⟨.histogram,"Seconds.",[1,5],[(⟨[],by simp⟩,⟨0,[1,2],9,3⟩)],by simp,by simp⟩)]
  distinct := by decide

theorem read_render_board : read (render counts board) = some (samples counts board) ∧ Apart counts board := by
  refine read_render counts board ⟨?_,?_,?_⟩ ⟨?_,?_⟩
  · simp only [board,List.forall_mem_cons,List.not_mem_nil,false_imp_iff,implies_true,and_true]
    exact ⟨⟨'h',['i','t','s'],rfl,by decide,List.all_eq_true.1 (by decide)⟩,
      ⟨'w',['a','i','t'],rfl,by decide,List.all_eq_true.1 (by decide)⟩⟩
  · simp only [board,List.forall_mem_cons,List.not_mem_nil,false_imp_iff,implies_true,and_true]
    decide
  · simp only [board,List.forall_mem_cons,List.not_mem_nil,false_imp_iff,implies_true,and_true]
    exact ⟨'p',['a','t','h'],rfl,by decide,List.all_eq_true.1 (by decide)⟩
  · simp only [board,List.forall_mem_cons,List.not_mem_nil,false_imp_iff,implies_true,and_true]
    decide
  · simp only [board,List.forall_mem_cons,List.not_mem_nil,false_imp_iff,implies_true,and_true]
    decide

end Rainier.Metrics
