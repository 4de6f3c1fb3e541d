import Rainier.OpenApi.Schema

/-! # Keywords and rules

Which rule of a field sets which keyword of its schema, what the kind of the field comes
to, and what follows for the validator's tests where a keyword holds of a value.
-/
namespace Rainier.OpenApi
open Rainier Rainier.Validation
variable {D : Type}

/-- A bound that is an integer. -/
def Integral (b : F64) : Prop := ∃ z : ℤ, b = .finite z ∧ F64.roundNat z.natAbs = z.natAbs

/-- The rules in question, with integer bounds. -/
def Listed : Rule D → Prop
  | .required | .string | .integer | .numeric | .boolean | .array | .isIn _ | .startsWith _ | .endsWith _ | .slug | .alpha
  | .alphaNumeric | .alphaDash => True
  | .min b | .max b | .size b => Integral b
  | .between low high => Integral low ∧ Integral high
  | _ => False

/-! ## Which rule sets which keyword -/

def setsLower : Rule D → Bool
  | .min _ | .size _ | .between _ _ => true
  | _ => false

def setsUpper : Rule D → Bool
  | .max _ | .size _ | .between _ _ => true
  | _ => false

def setsAllowed : Rule D → Bool
  | .isIn _ => true
  | _ => false

def setsPattern : Rule D → Bool
  | .startsWith _ | .endsWith _ | .slug | .alpha | .alphaNumeric | .alphaDash => true
  | _ => false

/-- The schema measures the value as the validator does: no text that reads as a number, and no boolean. -/
def Measured (kind : Kind) : Json → Prop
  | .string s => kind = .string ∧ F64.parse s = none
  | .array _ => kind = .array
  | .number _ => kind = .integer ∨ kind = .number
  | _ => False

/-- A lower bound that a count of `u64` can state. -/
def LowerFits (kind : Kind) (b : F64) : Prop := kind.measuresLength = true → b.le (.finite (2 ^ 64 - 1)) = true

/-- An upper bound that a count can state. -/
def UpperFits (kind : Kind) (b : F64) : Prop := kind.measuresLength = true → (F64.finite 0).le b = true

/-- The keywords for the lower edge. -/
def Property.lower (p : Property) : Option ℕ × Option ℕ × Option F64 := (p.minLength,p.minItems,p.minimum)

def Property.upper (p : Property) : Option ℕ × Option ℕ × Option F64 := (p.maxLength,p.maxItems,p.maximum)

section Bound
variable (p : Property) (kind : Kind) (b : F64)

@[simp] theorem bound_type (edge : Edge) : (bound p kind edge b).type = p.type := by
  cases edge <;> cases kind <;> rfl

@[simp] theorem bound_allowed (edge : Edge) : (bound p kind edge b).allowed = p.allowed := by
  cases edge <;> cases kind <;> rfl

@[simp] theorem bound_pattern (edge : Edge) : (bound p kind edge b).pattern = p.pattern := by
  cases edge <;> cases kind <;> rfl

@[simp] theorem bound_max_lower : (bound p kind .max b).lower = p.lower := by
  cases kind <;> rfl

@[simp] theorem bound_min_upper : (bound p kind .min b).upper = p.upper := by
  cases kind <;> rfl

end Bound

section Keep
variable (kind : Kind) (p : Property) {rule : Rule D}

theorem addRule_type : (addRule kind p rule).type = p.type := by
  cases rule with
  | min b | max b | size b | between low high => simp [addRule]
  | _ => rfl

theorem addRule_lower (h : setsLower rule = false) : (addRule kind p rule).lower = p.lower := by
  cases rule with
  | min b | size b | between low high => cases h
  | max b => exact bound_max_lower p kind b
  | _ => rfl

theorem addRule_upper (h : setsUpper rule = false) : (addRule kind p rule).upper = p.upper := by
  cases rule with
  | max b | size b | between low high => cases h
  | min b => exact bound_min_upper p kind b
  | _ => rfl

theorem addRule_allowed (h : setsAllowed rule = false) : (addRule kind p rule).allowed = p.allowed := by
  cases rule with
  | isIn values => cases h
  | min b | max b | size b | between low high => simp [addRule]
  | _ => rfl

theorem addRule_pattern (h : setsPattern rule = false) : (addRule kind p rule).pattern = p.pattern := by
  cases rule with
  | startsWith start | endsWith ending => cases h
  | slug | alpha | alphaNumeric | alphaDash => cases h
  | min b | max b | size b | between low high => simp [addRule]
  | _ => rfl

end Keep

/-- A keyword stays what the last rule that sets it made it. -/
theorem propertyFor_keeps {α : Type} {read : Property → α} {sets : Rule D → Bool} {before later : List (Rule D)} {rule : Rule D}
    (hkeep : ∀ p r, sets r = false → read (addRule (kindOf (before ++ rule :: later)) p r) = read p)
    (hlater : later.any sets = false) :
    ∃ p, read (propertyFor (before ++ rule :: later)) = read (addRule (kindOf (before ++ rule :: later)) p rule) := by
  refine ⟨before.foldl (addRule (kindOf (before ++ rule :: later))) (emptyProperty (kindOf (before ++ rule :: later))),?_⟩
  rw [propertyFor,List.foldl_append,List.foldl_cons]
  generalize addRule (kindOf (before ++ rule :: later)) _ rule = p
  generalize kindOf (before ++ rule :: later) = kind at hkeep ⊢
  induction later generalizing p with
  | nil => rfl
  | cons r later ih =>
    rw [List.any_cons,Bool.or_eq_false_iff] at hlater
    rw [List.foldl_cons,ih hlater.2,hkeep p r hlater.1]

theorem propertyFor_type (rules : List (Rule D)) : (propertyFor rules).type = (kindOf rules).jsonType := by
  rw [propertyFor]
  generalize kindOf rules = kind
  have hfold : ∀ p : Property, (rules.foldl (addRule kind) p).type = p.type := by
    induction rules with
    | nil => exact fun _ => rfl
    | cons rule rules ih =>
      intro p
      rw [List.foldl_cons,ih,addRule_type]
  exact hfold _

/-- Without formats, a field is of one of five kinds. -/
theorem kindOf_listed {rules : List (Rule D)} (h : ∀ rule ∈ rules, Listed rule) :
    kindOf rules ∈ [Kind.string,.integer,.number,.boolean,.array] := by
  have hfold : ∀ start ∈ [Kind.string,.integer,.number,.boolean,.array],
      rules.foldl narrow start ∈ [Kind.string,.integer,.number,.boolean,.array] := by
    induction rules with
    | nil => exact fun start hstart => hstart
    | cons rule rules ih =>
      intro start hstart
      have hrule := h rule List.mem_cons_self
      refine ih (fun r hr => h r (List.mem_cons_of_mem rule hr)) _ ?_
      cases rule with
      | email | url | uuid | date => cases hrule
      | numeric =>
        rw [narrow]
        split
        · simp
        · exact hstart
      | integer | boolean | array => simp [narrow]
      | _ => exact hstart
  exact hfold .string (by simp)

theorem narrow_ne_string {kind : Kind} (h : kind ≠ .string) (rule : Rule D) : narrow kind rule ≠ .string := by
  cases rule with
  | integer | boolean | array | email | url | uuid | date => simp [narrow]
  | numeric =>
    rw [narrow]
    split
    · simp
    · exact h
  | _ => exact h

/-- A rule that names another type leaves the field no text. -/
theorem kindOf_ne_string {before later : List (Rule D)} {rule : Rule D} (h : ∀ kind, narrow kind rule ≠ .string) :
    kindOf (before ++ rule :: later) ≠ .string := by
  rw [kindOf,List.foldl_append,List.foldl_cons]
  have hstart := h (before.foldl narrow .string)
  generalize narrow _ rule = start at hstart ⊢
  induction later generalizing start with
  | nil => exact hstart
  | cons r later ih => exact ih _ (narrow_ne_string hstart r)

/-! ## Numbers -/

section Numbers
variable {z : ℤ}

theorem intCast_le_roundNat (hz : F64.roundNat z.natAbs = z.natAbs) {n : ℕ} (h : z ≤ n) : (z : ℚ) ≤ F64.roundNat n := by
  rcases le_or_gt z 0 with hneg | hpos
  · calc (z : ℚ) ≤ 0 := by exact_mod_cast hneg
      _ ≤ F64.roundNat n := Nat.cast_nonneg _
  · have hround : z.natAbs ≤ F64.roundNat n := hz ▸ F64.roundNat_mono (by omega)
    have hcast : z ≤ (F64.roundNat n : ℤ) := by omega
    exact_mod_cast hcast

theorem roundNat_le_intCast (hz : F64.roundNat z.natAbs = z.natAbs) {n : ℕ} (h : (n : ℤ) ≤ z) : (F64.roundNat n : ℚ) ≤ z := by
  have hround : F64.roundNat n ≤ z.natAbs := hz ▸ F64.roundNat_mono (by omega)
  have hcast : (F64.roundNat n : ℤ) ≤ z := by omega
  exact_mod_cast hcast

/-- Rounding a number keeps it on its side of an integer that is a float. -/
theorem ofNumber_rounds {n : JsonNumber} {x : ℚ} (hx : numberValue n = some x) : ∃ y, F64.ofNumber n = .finite y ∧
    ∀ z : ℤ, F64.roundNat z.natAbs = z.natAbs → ((z : ℚ) ≤ x → (z : ℚ) ≤ y) ∧ (x ≤ z → y ≤ z) := by
  cases n with
  | posInt m =>
    cases hx
    refine ⟨_,rfl,fun z hz => ⟨fun h => ?_,fun h => ?_⟩⟩
    · exact intCast_le_roundNat hz (by exact_mod_cast h)
    · exact roundNat_le_intCast hz (by exact_mod_cast h)
  | negInt m =>
    cases hx
    refine ⟨_,rfl,fun z hz => ?_⟩
    rw [← Int.natAbs_neg] at hz
    constructor
    · intro h
      have hcast : z ≤ -1 - (m : ℤ) := by exact_mod_cast h
      have hround := roundNat_le_intCast hz (show ((m + 1 : ℕ) : ℤ) ≤ -z by omega)
      rw [Int.cast_neg] at hround
      linarith
    · intro h
      have hcast : -1 - (m : ℤ) ≤ z := by exact_mod_cast h
      have hround := intCast_le_roundNat hz (show -z ≤ ((m + 1 : ℕ) : ℤ) by omega)
      rw [Int.cast_neg] at hround
      linarith
  | float bits =>
    rw [numberValue] at hx
    split at hx
    · next q hq =>
      cases hx
      rw [F64.ofNumber,hq]
      exact ⟨x,rfl,fun z _ => ⟨id,id⟩⟩
    · cases hx

theorem toU64_intCast : (F64.finite z).toU64 = min (2 ^ 64 - 1) z.toNat := by
  rw [F64.toU64,Int.floor_intCast]

/-- A count that is no smaller than the stated one. -/
theorem le_ofNat (hz : F64.roundNat z.natAbs = z.natAbs) (hfits : (F64.finite z).le (.finite (2 ^ 64 - 1)) = true) {n : ℕ}
    (h : (F64.finite z).toU64 ≤ n) : (F64.finite z).le (.ofNat n) = true := by
  rw [toU64_intCast] at h
  have hbound : z ≤ 2 ^ 64 - 1 := by exact_mod_cast of_decide_eq_true hfits
  refine decide_eq_true (intCast_le_roundNat hz ?_)
  omega

theorem ofNat_le (hz : F64.roundNat z.natAbs = z.natAbs) (hfits : (F64.finite 0).le (.finite z) = true) {n : ℕ}
    (h : n ≤ (F64.finite z).toU64) : (F64.ofNat n).le (.finite z) = true := by
  rw [toU64_intCast] at h
  have hbound : 0 ≤ z := by exact_mod_cast of_decide_eq_true hfits
  refine decide_eq_true (roundNat_le_intCast hz ?_)
  omega

end Numbers

/-! ## Bounds -/

/-- What the validator compares with a bound. -/
def actual (v : Json) : F64 :=
  match Validation.measure v with
  | .number n => n
  | .length n => .ofNat n

section Bounds
variable {p q : Property} {kind : Kind} {v : Json} {b : F64}

theorem lower_holds (hb : Integral b) (hvalid : p.Valid v) (hset : p.lower = (bound q kind .min b).lower)
    (hmeasured : Measured kind v) (hfits : LowerFits kind b) : b.le (actual v) = true := by
  obtain ⟨z,rfl,hz⟩ := hb
  cases v with
  | string s =>
    obtain ⟨rfl,hparse⟩ := hmeasured
    have hlength : p.minLength = some (F64.finite z).toU64 := congrArg Prod.fst hset
    have hactual : actual (.string s) = .ofNat s.toList.length := by simp only [actual,Validation.measure,hparse]
    rw [hactual]
    exact le_ofNat hz (hfits rfl) (hvalid.minLength _ s hlength rfl)
  | array items =>
    obtain rfl := hmeasured
    have hitems : p.minItems = some (F64.finite z).toU64 := congrArg (fun l => l.2.1) hset
    exact le_ofNat hz (hfits rfl) (hvalid.minItems _ items hitems rfl)
  | number n =>
    have hminimum : p.minimum = some (.finite z) := by
      rcases hmeasured with rfl | rfl
      · exact congrArg (fun l => l.2.2) hset
      · exact congrArg (fun l => l.2.2) hset
    obtain ⟨x,hx,hle⟩ := hvalid.minimum _ n hminimum rfl
    obtain ⟨y,hy,hround⟩ := ofNumber_rounds hx
    change (F64.finite z).le (F64.ofNumber n) = true
    rw [hy]
    exact decide_eq_true ((hround z hz).1 hle)
  | null | bool _ | object _ => cases hmeasured

theorem upper_holds (hb : Integral b) (hvalid : p.Valid v) (hset : p.upper = (bound q kind .max b).upper)
    (hmeasured : Measured kind v) (hfits : UpperFits kind b) : (actual v).le b = true := by
  obtain ⟨z,rfl,hz⟩ := hb
  cases v with
  | string s =>
    obtain ⟨rfl,hparse⟩ := hmeasured
    have hlength : p.maxLength = some (F64.finite z).toU64 := congrArg Prod.fst hset
    have hactual : actual (.string s) = .ofNat s.toList.length := by simp only [actual,Validation.measure,hparse]
    rw [hactual]
    exact ofNat_le hz (hfits rfl) (hvalid.maxLength _ s hlength rfl)
  | array items =>
    obtain rfl := hmeasured
    have hitems : p.maxItems = some (F64.finite z).toU64 := congrArg (fun l => l.2.1) hset
    exact ofNat_le hz (hfits rfl) (hvalid.maxItems _ items hitems rfl)
  | number n =>
    have hmaximum : p.maximum = some (.finite z) := by
      rcases hmeasured with rfl | rfl
      · exact congrArg (fun l => l.2.2) hset
      · exact congrArg (fun l => l.2.2) hset
    obtain ⟨x,hx,hle⟩ := hvalid.maximum _ n hmaximum rfl
    obtain ⟨y,hy,hround⟩ := ofNumber_rounds hx
    change (F64.ofNumber n).le (.finite z) = true
    rw [hy]
    exact decide_eq_true ((hround z hz).2 hle)
  | null | bool _ | object _ => cases hmeasured

/-- Between a bound and itself is the bound. -/
theorem eq_of_le_of_le {a : F64} {z : ℤ} (hlow : (F64.finite z).le a = true) (hhigh : a.le (.finite z) = true) :
    a = .finite z := by
  cases a with
  | finite x =>
    have hle : (z : ℚ) ≤ x := of_decide_eq_true hlow
    have hge : x ≤ (z : ℚ) := of_decide_eq_true hhigh
    rw [le_antisymm hge hle]
  | nan => cases hlow
  | negInf => cases hlow
  | posInf => cases hhigh

variable {fm : Formats D} {field : String} {all : Json}

theorem check_eq_pass (passed : Bool) (message : String) : Validation.check passed message = .pass ↔ passed = true := by
  cases passed <;> simp [Validation.check]

theorem check_min : Rule.checkValue fm field v all (.min b) = .pass ↔ b.le (actual v) = true := by
  rw [Rule.checkValue,actual]
  cases Validation.measure v with
  | number n | length n => exact check_eq_pass _ _

theorem check_max : Rule.checkValue fm field v all (.max b) = .pass ↔ (actual v).le b = true := by
  rw [Rule.checkValue,actual]
  cases Validation.measure v with
  | number n | length n => exact check_eq_pass _ _

theorem check_between {low high : F64} : Rule.checkValue fm field v all (.between low high) = .pass ↔
    low.le (actual v) = true ∧ (actual v).le high = true := by
  rw [← Bool.and_eq_true]
  exact check_eq_pass _ _

theorem check_size {z : ℤ} (h : actual v = .finite z) : Rule.checkValue fm field v all (.size (.finite z)) = .pass := by
  have hnear : (F64.finite (z : ℚ)).near (.finite z) = true := by
    have hround : F64.round 0 = .finite 0 := if_pos rfl
    rw [F64.near,sub_self,hround]
    exact decide_eq_true (by norm_num)
  have heq : (F64.finite (z : ℚ)).eq (.finite z) = true := decide_eq_true rfl
  rw [Rule.checkValue]
  rw [actual] at h
  cases hm : Validation.measure v with
  | number n =>
    simp only [hm] at h ⊢
    rw [h,hnear]
    rfl
  | length n =>
    simp only [hm] at h ⊢
    rw [h,heq]
    rfl

end Bounds

/-! ## Texts -/

section Texts
variable {fm : Formats D} {field s : String} {all : Json}

theorem ofList_start (start : String) : "^" ++ escape start = String.ofList ('^' :: start.toList.flatMap Pattern.escapeChar) := by
  apply String.toList_injective
  simp [escape]

theorem ofList_ending (ending : String) :
    escape ending ++ "$" = String.ofList (ending.toList.flatMap Pattern.escapeChar ++ ['$']) := by
  apply String.toList_injective
  simp [escape]

/-- A class of the schema that accepts no more than the validator's test. -/
theorem allChars_of_matches {pattern : String} {ranges : List (Char × Char)} {ok : Char → Bool}
    (hparse : Pattern.parse pattern = some ⟨true,[⟨.oneOf ranges,true⟩],true⟩)
    (hok : ∀ c, (Pattern.Atom.oneOf ranges).accepts c = true → ok c = true) (h : Pattern.Matches pattern s) :
    allChars ok s = true := by
  obtain ⟨hne,hall⟩ := Pattern.all_of_matches hparse h
  have hempty : s ≠ "" := by
    rintro rfl
    exact hne rfl
  have hchars : s.toList.all ok = true := List.all_eq_true.mpr fun c hc => hok c (List.all_eq_true.mp hall c hc)
  simp [allChars,hempty,hchars]

theorem isAlphabetic_of_accepts (c : Char) (h : (Pattern.Atom.oneOf [('A','Z'),('a','z')]).accepts c = true) :
    isAlphabetic c = true := by
  simpa [Pattern.Atom.accepts,isAlphabetic] using h

theorem isAlphanumeric_of_accepts (c : Char) (h : (Pattern.Atom.oneOf [('A','Z'),('a','z'),('0','9')]).accepts c = true) :
    isAlphanumeric c = true := by
  simpa [Pattern.Atom.accepts,isAlphanumeric,isAlphabetic,Text.isDigit,or_assoc] using h

theorem isDash_of_accepts (c : Char)
    (h : (Pattern.Atom.oneOf [('A','Z'),('a','z'),('0','9'),('_','_'),('-','-')]).accepts c = true) : isDash c = true := by
  have heq : ∀ d : Char, d ≤ c → c ≤ d → c = d := fun d hle hge => Char.le_antisymm hge hle
  simp only [Pattern.Atom.accepts,List.any_cons,List.any_nil,Bool.or_false,Bool.or_eq_true,Bool.and_eq_true,
    decide_eq_true_eq] at h
  simp only [isDash,isAlphanumeric,isAlphabetic,Text.isDigit,Bool.or_eq_true,Bool.and_eq_true,decide_eq_true_eq]
  rcases h with h | h | h | h | h
  · exact .inl (.inl (.inl (.inl h)))
  · exact .inl (.inl (.inl (.inr h)))
  · exact .inl (.inl (.inr h))
  · exact .inr (heq '_' h.1 h.2)
  · exact .inl (.inr (heq '-' h.1 h.2))

theorem check_text {test : String → Bool} (h : test s = true) (message : String) :
    check (Rule.textIs fm (.string s) test) message = .pass := by
  change check (test s) message = .pass
  rw [h]
  rfl

end Texts

end Rainier.OpenApi
