import Mathlib.Data.List.TakeWhile
import Rainier.OpenApi.Keywords
import Rainier.Validation.Wildcards

/-! # What the schema promises

A value that is valid under the schema of a field passes every rule of the field that the
schema expresses. The rules it does not express are told apart by `Expressed`: they are
the ones that can refuse what the schema allows.
-/
namespace Rainier.OpenApi
open Rainier Rainier.Validation
variable {D : Type}

/-! ## Rules that are expressed -/

/-- The schema of a field of this kind says of the value what the rule says, and no later
rule of the field says otherwise. -/
def Expressed (kind : Kind) (later : List (Rule D)) (v : Json) : Rule D → Prop
  | .required => kind = .integer ∨ kind = .number ∨ kind = .boolean
  | .string => kind = .string
  | .numeric => kind = .integer ∨ kind = .number
  | .boolean => kind = .boolean
  | .array => kind = .array
  | .min b => later.any setsLower = false ∧ Measured kind v ∧ LowerFits kind b
  | .max b => later.any setsUpper = false ∧ Measured kind v ∧ UpperFits kind b
  | .size b => later.any setsLower = false ∧ later.any setsUpper = false ∧ Measured kind v ∧ LowerFits kind b ∧ UpperFits kind b
  | .between low high =>
    later.any setsLower = false ∧ later.any setsUpper = false ∧ Measured kind v ∧ LowerFits kind low ∧ UpperFits kind high
  | .isIn _ => later.any setsAllowed = false
  | .startsWith _ | .endsWith _ | .slug | .alpha | .alphaNumeric | .alphaDash =>
    kind = .string ∧ later.any setsPattern = false
  | _ => False

theorem string_of_hasType {v : Json} (h : HasType .string v) : ∃ s, v = .string s := by
  cases v with
  | string s => exact ⟨s,rfl⟩
  | _ => cases h

theorem number_of_hasType {v : Json} (h : HasType .integer v ∨ HasType .number v) : ∃ n, v = .number n := by
  cases v with
  | number n => exact ⟨n,rfl⟩
  | _ => rcases h with h | h <;> cases h

theorem bool_of_hasType {v : Json} (h : HasType .boolean v) : ∃ b, v = .bool b := by
  cases v with
  | bool b => exact ⟨b,rfl⟩
  | _ => cases h

theorem array_of_hasType {v : Json} (h : HasType .array v) : ∃ items, v = .array items := by
  cases v with
  | array items => exact ⟨items,rfl⟩
  | _ => cases h

theorem ne_null_of_hasType {t : JsonType} {v : Json} (h : HasType t v) : v ≠ .null := by
  rintro rfl
  cases t <;> cases h

theorem check_present {fm : Formats D} {field : String} {v all : Json} {rule : Rule D} (hv : v ≠ .null)
    (hrule : rule.appliesToMissing = false) : rule.check fm field (some v) all = rule.checkValue fm field v all := by
  cases v with
  | null => exact absurd rfl hv
  | _ =>
    cases rule with
    | required | present | notNull => cases hrule
    | _ => rfl

section Expressed
variable {fm : Formats D} {field : String} {v all : Json} {before later : List (Rule D)} {rule : Rule D}

theorem lower_of_propertyFor (hlater : later.any setsLower = false) : ∃ p,
    (propertyFor (before ++ rule :: later)).lower = (addRule (kindOf (before ++ rule :: later)) p rule).lower :=
  propertyFor_keeps (fun p _ hr => addRule_lower _ p hr) hlater

theorem upper_of_propertyFor (hlater : later.any setsUpper = false) : ∃ p,
    (propertyFor (before ++ rule :: later)).upper = (addRule (kindOf (before ++ rule :: later)) p rule).upper :=
  propertyFor_keeps (fun p _ hr => addRule_upper _ p hr) hlater

theorem pattern_of_propertyFor (hlater : later.any setsPattern = false) : ∃ p,
    (propertyFor (before ++ rule :: later)).pattern = (addRule (kindOf (before ++ rule :: later)) p rule).pattern :=
  propertyFor_keeps (fun p _ hr => addRule_pattern _ p hr) hlater

/-- A value that is valid passes what the schema expresses. -/
theorem check_of_expressed (hlisted : Listed rule) (hvalid : (propertyFor (before ++ rule :: later)).Valid v)
    (h : Expressed (kindOf (before ++ rule :: later)) later v rule) : rule.check fm field (some v) all = .pass := by
  have htype := hvalid.type
  rw [propertyFor_type] at htype
  have hnull := ne_null_of_hasType htype
  -- a rule that sets the pattern finds it in the text
  have hpattern (t : String) (hkind : kindOf (before ++ rule :: later) = .string) (hlater : later.any setsPattern = false)
      (hset : ∀ p, (addRule (kindOf (before ++ rule :: later)) p rule).pattern = some t) :
      ∃ s, v = .string s ∧ Pattern.Matches t s := by
    rw [hkind] at htype
    obtain ⟨s,rfl⟩ := string_of_hasType htype
    obtain ⟨p,hp⟩ := pattern_of_propertyFor hlater
    exact ⟨s,rfl,hvalid.pattern t s (hp.trans (hset p)) rfl⟩
  cases rule with
  | required =>
    rcases h with hkind | hkind | hkind
    · rw [hkind] at htype
      obtain ⟨n,rfl⟩ := number_of_hasType (.inl htype)
      rfl
    · rw [hkind] at htype
      obtain ⟨n,rfl⟩ := number_of_hasType (.inr htype)
      rfl
    · rw [hkind] at htype
      obtain ⟨b,rfl⟩ := bool_of_hasType htype
      rfl
  | string =>
    rw [show kindOf _ = _ from h] at htype
    obtain ⟨s,rfl⟩ := string_of_hasType htype
    rfl
  | numeric =>
    obtain ⟨n,rfl⟩ : ∃ n, v = .number n := by
      rcases h with hkind | hkind
      · rw [hkind] at htype
        exact number_of_hasType (.inl htype)
      · rw [hkind] at htype
        exact number_of_hasType (.inr htype)
    rfl
  | boolean =>
    rw [show kindOf _ = _ from h] at htype
    obtain ⟨b,rfl⟩ := bool_of_hasType htype
    rfl
  | array =>
    rw [show kindOf _ = _ from h] at htype
    obtain ⟨items,rfl⟩ := array_of_hasType htype
    rfl
  | min b =>
    obtain ⟨hlater,hmeasured,hfits⟩ := h
    obtain ⟨p,hp⟩ := lower_of_propertyFor hlater
    rw [check_present hnull rfl]
    exact check_min.mpr (lower_holds hlisted hvalid hp hmeasured hfits)
  | max b =>
    obtain ⟨hlater,hmeasured,hfits⟩ := h
    obtain ⟨p,hp⟩ := upper_of_propertyFor hlater
    rw [check_present hnull rfl]
    exact check_max.mpr (upper_holds hlisted hvalid hp hmeasured hfits)
  | size b =>
    obtain ⟨hlow,hhigh,hmeasured,hlower,hupper⟩ := h
    obtain ⟨p,hp⟩ := lower_of_propertyFor hlow
    obtain ⟨q,hq⟩ := upper_of_propertyFor hhigh
    have hle := lower_holds hlisted hvalid (hp.trans (bound_max_lower _ _ b)) hmeasured hlower
    have hge := upper_holds hlisted hvalid hq hmeasured hupper
    obtain ⟨z,rfl,_⟩ := hlisted
    rw [check_present hnull rfl]
    exact check_size (eq_of_le_of_le hle hge)
  | between low high =>
    obtain ⟨hlow,hhigh,hmeasured,hlower,hupper⟩ := h
    obtain ⟨p,hp⟩ := lower_of_propertyFor hlow
    obtain ⟨q,hq⟩ := upper_of_propertyFor hhigh
    have hle := lower_holds hlisted.1 hvalid (hp.trans (bound_max_lower _ _ high)) hmeasured hlower
    have hge := upper_holds hlisted.2 hvalid hq hmeasured hupper
    rw [check_present hnull rfl]
    exact check_between.mpr ⟨hle,hge⟩
  | isIn values =>
    obtain ⟨p,hp⟩ := propertyFor_keeps (fun p _ hr => addRule_allowed _ p hr) (show later.any setsAllowed = false from h)
    obtain ⟨s,hs,rfl⟩ := hvalid.allowed values hp
    exact check_text (decide_eq_true hs) _
  | startsWith start =>
    obtain ⟨s,rfl,hmatches⟩ := hpattern _ h.1 h.2 fun _ => rfl
    rw [ofList_start] at hmatches
    exact check_text (decide_eq_true (Pattern.prefix_of_matches hmatches)) _
  | endsWith ending =>
    obtain ⟨s,rfl,hmatches⟩ := hpattern _ h.1 h.2 fun _ => rfl
    rw [ofList_ending] at hmatches
    exact check_text (decide_eq_true (Pattern.suffix_of_matches hmatches)) _
  | slug | alphaDash =>
    obtain ⟨s,rfl,hmatches⟩ := hpattern _ h.1 h.2 fun _ => rfl
    exact check_text (allChars_of_matches (by decide) isDash_of_accepts hmatches) _
  | alpha =>
    obtain ⟨s,rfl,hmatches⟩ := hpattern _ h.1 h.2 fun _ => rfl
    exact check_text (allChars_of_matches (by decide) isAlphabetic_of_accepts hmatches) _
  | alphaNumeric =>
    obtain ⟨s,rfl,hmatches⟩ := hpattern _ h.1 h.2 fun _ => rfl
    exact check_text (allChars_of_matches (by decide) isAlphanumeric_of_accepts hmatches) _
  | _ => cases h

end Expressed

/-! ## Rules that are not -/

/-- What a rule that the schema does not express asks of a value that the schema allows.
A value of the field's type is of no other type, but a number can still be an integer, and
zero and one are truth values. -/
def Accepted (fm : Formats D) (v : Json) : Rule D → Prop
  | .required => isFilled (some v) = true
  | .integer => ∃ n, v = .number n ∧ (asI64 n).isSome = true
  | .boolean => ∃ n, v = .number n ∧ (asI64 n = some 0 ∨ asI64 n = some 1)
  | .min b => b.le (actual v) = true
  | .max b => (actual v).le b = true
  | .between low high => low.le (actual v) = true ∧ (actual v).le high = true
  | .size b =>
    match Validation.measure v with
    | .number n => n.near b = true
    | .length n => (F64.ofNat n).eq b = true
  | .isIn values => Rule.textIs fm v (· ∈ values) = true
  | .startsWith start => Rule.textIs fm v (fun s => start.toList <+: s.toList) = true
  | .endsWith ending => Rule.textIs fm v (fun s => ending.toList <:+ s.toList) = true
  | .slug | .alphaDash => Rule.textIs fm v (allChars isDash) = true
  | .alpha => Rule.textIs fm v (allChars isAlphabetic) = true
  | .alphaNumeric => Rule.textIs fm v (allChars isAlphanumeric) = true
  | _ => False

/-- The kind of a field whose schema allows the value. -/
def OfKind (kind : Kind) : Json → Prop
  | .string _ => kind = .string
  | .number _ => kind = .integer ∨ kind = .number
  | .bool _ => kind = .boolean
  | .array _ => kind = .array
  | _ => False

theorem ofKind_of_hasType {kind : Kind} {v : Json} (hkind : kind ∈ [Kind.string,.integer,.number,.boolean,.array])
    (h : HasType kind.jsonType v) : OfKind kind v := by
  simp only [List.mem_cons,List.not_mem_nil,or_false] at hkind
  rcases hkind with rfl | rfl | rfl | rfl | rfl
  · obtain ⟨s,rfl⟩ := string_of_hasType h
    rfl
  · obtain ⟨n,rfl⟩ := number_of_hasType (.inl h)
    exact .inl rfl
  · obtain ⟨n,rfl⟩ := number_of_hasType (.inr h)
    exact .inr rfl
  · obtain ⟨b,rfl⟩ := bool_of_hasType h
    rfl
  · obtain ⟨items,rfl⟩ := array_of_hasType h
    rfl

section Unexpressed
variable {fm : Formats D} {field : String} {v all : Json} {before later : List (Rule D)} {rule : Rule D}

/-- A valid value passes a rule that the schema does not express just when it has what the rule asks. -/
theorem check_of_unexpressed (hlisted : ∀ r ∈ before ++ rule :: later, Listed r)
    (hvalid : (propertyFor (before ++ rule :: later)).Valid v)
    (h : ¬ Expressed (kindOf (before ++ rule :: later)) later v rule) :
    rule.check fm field (some v) all = .pass ↔ Accepted fm v rule := by
  have htype := hvalid.type
  rw [propertyFor_type] at htype
  have hnull := ne_null_of_hasType htype
  have hkind := ofKind_of_hasType (kindOf_listed hlisted) htype
  have hrule : Listed rule := hlisted rule (by simp)
  cases rule with
  | required =>
    rw [Rule.check,Accepted]
    split <;> simp_all
  | string =>
    rw [check_present hnull rfl]
    refine (check_eq_pass _ _).trans ?_
    cases v with
    | string s => exact absurd hkind h
    | _ => exact iff_of_false Bool.false_ne_true id
  | integer =>
    rw [check_present hnull rfl]
    refine (check_eq_pass _ _).trans ?_
    cases v with
    | string s => exact absurd hkind (kindOf_ne_string (by simp [narrow]))
    | number n => simp [Accepted,asInteger]
    | _ => simp [Accepted,asInteger]
  | numeric =>
    have hne : kindOf (before ++ .numeric :: later) ≠ .string := by
      apply kindOf_ne_string
      intro kind
      rw [narrow]
      split
      · simp
      · simp_all
    rw [check_present hnull rfl]
    refine (check_eq_pass _ _).trans ?_
    cases v with
    | string s => exact absurd hkind hne
    | number n => exact absurd hkind h
    | _ => exact iff_of_false Bool.false_ne_true id
  | boolean =>
    rw [check_present hnull rfl]
    refine (check_eq_pass _ _).trans ?_
    cases v with
    | string s => exact absurd hkind (kindOf_ne_string (by simp [narrow]))
    | bool b => exact absurd hkind h
    | number n =>
      have hbool : (asBool (.number n)).isSome = true ↔ asI64 n = some 0 ∨ asI64 n = some 1 := by
        rw [asBool]
        cases asI64 n with
        | none => simp
        | some i => by_cases hi : i = 0 ∨ i = 1 <;> simp [hi]
      rw [hbool]
      simp [Accepted]
    | _ => simp [Accepted,asBool]
  | array =>
    rw [check_present hnull rfl]
    refine (check_eq_pass _ _).trans ?_
    cases v with
    | array items => exact absurd hkind h
    | _ => exact iff_of_false Bool.false_ne_true id
  | min b =>
    rw [check_present hnull rfl]
    exact check_min
  | max b =>
    rw [check_present hnull rfl]
    exact check_max
  | size b =>
    rw [check_present hnull rfl,Rule.checkValue,Accepted]
    cases Validation.measure v with
    | number n | length n => exact check_eq_pass _ _
  | between low high =>
    rw [check_present hnull rfl]
    exact check_between
  | isIn values | startsWith start | endsWith ending =>
    rw [check_present hnull rfl]
    exact check_eq_pass _ _
  | slug | alphaDash | alpha | alphaNumeric =>
    rw [check_present hnull rfl]
    exact check_eq_pass _ _
  | _ => cases hrule

end Unexpressed

/-! ## The document and the endpoint -/

theorem check_ne_skip (passed : Bool) (message : String) : Validation.check passed message ≠ .skip := by
  cases passed <;> simp [Validation.check]

theorem ruleCheck_ne_skip {fm : Formats D} {field : String} {v all : Json} (hv : v ≠ .null) (rule : Rule D) :
    rule.check fm field (some v) all ≠ .skip := by
  cases hrule : rule.appliesToMissing with
  | true =>
    cases rule with
    | required | present | notNull =>
      simp only [Rule.check]
      split <;> simp
    | _ => cases hrule
  | false =>
    rw [check_present hv hrule]
    cases rule with
    | required | present | notNull => cases hrule
    | min b | max b | size b =>
      rw [Rule.checkValue]
      split <;> exact check_ne_skip _ _
    | _ => exact check_ne_skip _ _

theorem passes_iff_forall {fm : Formats D} {field : String} {v all : Json} (hv : v ≠ .null) {rules : List (Rule D)} :
    Passes fm field (some v) all rules ↔ ∀ rule ∈ rules, rule.check fm field (some v) all = .pass := by
  have hall : rules.takeWhile (fun rule => rule.check fm field (some v) all ≠ .skip) = rules :=
    List.takeWhile_eq_self_iff.mpr fun rule _ => decide_eq_true (ruleCheck_ne_skip hv rule)
  rw [Passes,hall]

/-- Nothing but a presence rule minds what is absent. -/
theorem passes_absent {fm : Formats D} {field : String} {all : Json} {rules : List (Rule D)}
    (h : ∀ rule ∈ rules, Listed rule) (hrequired : isRequired rules = false) : Passes fm field none all rules := by
  cases rules with
  | nil => exact fun _ hmem => nomatch hmem
  | cons rule rules =>
    have hrule := h rule List.mem_cons_self
    rw [passes_cons]
    refine .inl ?_
    cases rule with
    | required => cases hrequired
    | present | notNull => cases hrule
    | _ => rfl

theorem properties_foldl {rules : List (String × List (Rule D))} (hnames : (rules.map Prod.fst).Nodup)
    {entry : String × List (Rule D)} (h : entry ∈ rules) (start : String → Option Property) :
    rules.foldl (fun (properties : String → Option Property) (e : String × List (Rule D)) =>
      Function.update properties e.1 (some (propertyFor e.2))) start entry.1 = some (propertyFor entry.2) := by
  have hother (rest : List (String × List (Rule D))) (hrest : entry.1 ∉ rest.map Prod.fst) (start : String → Option Property) :
      rest.foldl (fun (properties : String → Option Property) (e : String × List (Rule D)) =>
        Function.update properties e.1 (some (propertyFor e.2))) start entry.1 = start entry.1 := by
    induction rest generalizing start with
    | nil => rfl
    | cons other rest ih =>
      rw [List.map_cons,List.mem_cons,not_or] at hrest
      rw [List.foldl_cons,ih hrest.2,Function.update_of_ne hrest.1]
  induction rules generalizing start with
  | nil => cases h
  | cons first rest ih =>
    obtain ⟨hfirst,hrest⟩ := List.nodup_cons.mp (List.map_cons ▸ hnames)
    rw [List.foldl_cons]
    rcases List.mem_cons.mp h with rfl | h
    · rw [hother rest hfirst,Function.update_self]
    · exact ih hrest h _

theorem split_undotted {name : String} (h : '.' ∉ name.toList) : Text.split '.' name = [name] := by
  have hsplit := Text.split_join (List.cons_ne_nil name []) (by simpa using h)
  rwa [Text.join_singleton] at hsplit

theorem lookup_undotted {name : String} (hdots : '.' ∉ name.toList) (fields : List (String × Json)) :
    lookup (.object fields) name = Json.field fields name := by
  rw [lookup,split_undotted hdots,Json.walk_cons]
  cases h : Json.field fields name with
  | none => simp [Json.child,h]
  | some v => simp [Json.child,h]

/-- A field name without a dot stands for itself, unless it is a wildcard. -/
theorem expand_undotted {name : String} (hdots : '.' ∉ name.toList) (hstar : name ≠ "*") (input : Json) :
    expand name input = [name] := by
  rw [expand]
  split
  · rfl
  · rw [split_undotted hdots,List.foldl_cons,List.flatMap_singleton,grow,if_pos hstar]
    rfl

/-- A wildcard alone stands for the elements of the field without a name, but as fields of the body. -/
theorem expand_star (fields : List (String × Json)) :
    expand "*" (.object fields) = (indices (Json.field fields "")).map Nat.repr := by
  rw [expand,if_neg (by decide),split_undotted (by decide),List.foldl_cons,List.flatMap_singleton,grow,if_neg (by simp),
    lookup_undotted (by decide)]
  rfl

theorem validate_fromRules {fm : Formats D} {rules : List (String × List (Rule D))} {input : Json} :
    (Validator.fromRules rules).validate fm input = .ok () ↔
      ∀ entry ∈ rules, ∀ key ∈ expand entry.1 input, Passes fm key (lookup input key) input entry.2 := by
  rw [validate_eq_ok]
  constructor
  · intro h entry hentry key hkey
    by_contra hfails
    exact h key (mem_fields_errorsOf.mpr ⟨entry,hentry,hkey,hfails⟩)
  · intro h key hmem
    obtain ⟨entry,hentry,hkey,hfails⟩ := mem_fields_errorsOf.mp hmem
    exact hfails (h entry hentry key hkey)

/-- A body has what the rules ask that the schema does not express. A field named `*` is no
field to the validator, which runs its rules on fields that are named by numbers. -/
structure Unrefused (fm : Formats D) (rules : List (String × List (Rule D))) (fields : List (String × Json)) : Prop where
  unexpressed : ∀ name before rule later v, (name,before ++ rule :: later) ∈ rules → name ≠ "*" →
    Json.field fields name = some v → ¬ Expressed (kindOf (before ++ rule :: later)) later v rule → Accepted fm v rule
  wildcard : ∀ entry ∈ rules, entry.1 = "*" → ∀ i ∈ indices (Json.field fields ""),
    Passes fm (Nat.repr i) (Json.field fields (Nat.repr i)) (.object fields) entry.2

/-- The endpoint accepts a body that the document describes, just when the body has what
the rules ask that the schema does not express. -/
theorem promise_kept_iff (fm : Formats D) (rules : List (String × List (Rule D))) (fields : List (String × Json))
    (hnames : (rules.map Prod.fst).Nodup) (hdots : ∀ entry ∈ rules, '.' ∉ entry.1.toList)
    (hlisted : ∀ entry ∈ rules, ∀ rule ∈ entry.2, Listed rule) :
    ((schemaFor rules).Valid fields → (Validator.fromRules rules).validate fm (.object fields) = .ok ()) ↔
      ((schemaFor rules).Valid fields → Unrefused fm rules fields) := by
  refine forall_congr' fun hvalid => ?_
  have hproperty : ∀ entry ∈ rules, ∀ v, Json.field fields entry.1 = some v → (propertyFor entry.2).Valid v :=
    fun entry hentry v => hvalid.properties entry.1 _ v (properties_foldl hnames hentry _)
  rw [validate_fromRules]
  constructor
  · intro h
    refine ⟨fun name before rule later v hentry hstar hfield hexpressed => ?_,fun entry hentry hstar i hi => ?_⟩
    · have hv := hproperty _ hentry v hfield
      have hpasses := h _ hentry name (by rw [expand_undotted (hdots _ hentry) hstar]; exact List.mem_singleton_self name)
      rw [lookup_undotted (hdots _ hentry),hfield,passes_iff_forall (ne_null_of_hasType hv.type)] at hpasses
      exact (check_of_unexpressed (hlisted _ hentry) hv hexpressed).mp (hpasses rule (by simp))
    · rw [← lookup_undotted (dot_not_mem_repr i) fields]
      apply h entry hentry
      rw [hstar,expand_star]
      exact List.mem_map_of_mem hi
  · intro h entry hentry key hkey
    by_cases hstar : entry.1 = "*"
    · rw [hstar,expand_star] at hkey
      obtain ⟨i,hi,rfl⟩ := List.mem_map.mp hkey
      rw [lookup_undotted (dot_not_mem_repr i)]
      exact h.wildcard entry hentry hstar i hi
    rw [expand_undotted (hdots entry hentry) hstar,List.mem_singleton] at hkey
    subst hkey
    rw [lookup_undotted (hdots entry hentry)]
    cases hfield : Json.field fields entry.1 with
    | none =>
      apply passes_absent (hlisted entry hentry)
      by_contra hrequired
      refine hvalid.required entry.1 ?_ hfield
      exact List.mem_map_of_mem (List.mem_filter.mpr ⟨hentry,by simpa using hrequired⟩)
    | some v =>
      have hv := hproperty entry hentry v hfield
      rw [passes_iff_forall (ne_null_of_hasType hv.type)]
      intro rule hrule
      obtain ⟨before,later,hsplit⟩ := List.append_of_mem hrule
      have hall := hlisted entry hentry
      rw [hsplit] at hv hall
      by_cases hexpressed : Expressed (kindOf (before ++ rule :: later)) later v rule
      · exact check_of_expressed (hlisted entry hentry rule hrule) hv hexpressed
      · apply (check_of_unexpressed hall hv hexpressed).mpr
        exact h.unexpressed entry.1 before rule later v (hsplit ▸ hentry) hstar hfield hexpressed

/-- A body of one field, with a rule set of that field. -/
theorem valid_single {name : String} {rules : List (Rule D)} {v : Json} (h : (propertyFor rules).Valid v) :
    (schemaFor [(name,rules)]).Valid [(name,v)] := by
  have hfield : Json.field [(name,v)] name = some v := by simp [Json.field]
  have hproperties : (schemaFor [(name,rules)]).properties = Function.update (fun _ => none) name (some (propertyFor rules)) :=
    rfl
  constructor
  · intro required hrequired
    have hname : required = name := by
      obtain ⟨entry,hentry,rfl⟩ := List.mem_map.mp hrequired
      rw [List.mem_singleton.mp (List.mem_of_mem_filter hentry)]
    simp [hname,hfield]
  · intro other p w hp hw
    rw [hproperties] at hp
    by_cases hname : other = name
    · subst hname
      rw [Function.update_self,Option.some_inj] at hp
      rw [hfield,Option.some_inj] at hw
      subst hp hw
      exact h
    · rw [Function.update_of_ne hname] at hp
      cases hp

/-- A title is needed, and has three to 120 characters. -/
def titleRules : List (String × List (Rule Unit)) := [("title",[.required,.string,.between (.finite 3) (.finite 120)])]

theorem integral_natCast {n : ℕ} (h : F64.roundNat n = n) : Integral (.finite n) := ⟨n,rfl,h⟩

theorem title_listed : ∀ entry ∈ titleRules, ∀ rule ∈ entry.2, Listed rule := by
  have hlow : Integral (.finite 3) := integral_natCast (n := 3) (by decide)
  have hhigh : Integral (.finite 120) := integral_natCast (n := 120) (by decide)
  simp [titleRules,Listed,hlow,hhigh]

theorem title_valid : (schemaFor titleRules).Valid [("title",.string "hello")] := by
  apply valid_single
  constructor
  · trivial
  · intro n s hn hs
    cases hn
    cases hs
    decide
  · intro n s hn hs
    cases hn
    cases hs
    decide
  all_goals exact nofun

theorem title_unrefused : Unrefused plainFormats titleRules [("title",.string "hello")] := by
  constructor
  · intro name before rule later v hentry _ hfield hexpressed
    simp only [titleRules,List.mem_singleton,Prod.mk.injEq] at hentry
    obtain ⟨rfl,hrules⟩ := hentry
    cases hfield
    rcases before with _ | ⟨_,_ | ⟨_,_ | ⟨_,before⟩⟩⟩
    · cases hrules
      change isFilled (some (.string "hello")) = true
      decide
    · cases hrules
      exact absurd rfl hexpressed
    · cases hrules
      have hparse : F64.parse "hello" = none := by decide
      have hlow : (F64.finite 3).le (.finite (2 ^ 64 - 1)) = true := by simp [F64.le]; norm_num
      have hhigh : (F64.finite 0).le (.finite 120) = true := by simp [F64.le]
      exact absurd ⟨rfl,rfl,⟨rfl,hparse⟩,fun _ => hlow,fun _ => hhigh⟩ hexpressed
    · simp at hrules
  · intro entry hentry hstar
    rw [List.mem_singleton.mp hentry] at hstar
    exact absurd hstar (by decide)

theorem promise_kept_title : (schemaFor titleRules).Valid [("title",.string "hello")] ∧
    (Validator.fromRules titleRules).validate plainFormats (.object [("title",.string "hello")]) = .ok () := by
  have hkept := promise_kept_iff plainFormats titleRules [("title",.string "hello")] (by decide) (by decide) title_listed
  exact ⟨title_valid,hkept.mpr (fun _ => title_unrefused) title_valid⟩

/-- A code has at most five characters. -/
def codeRules : List (String × List (Rule Unit)) := [("code",[.string,.max (.finite 5)])]

/-- The schema counts three characters, the validator reads a hundred. -/
theorem numeric_text_refused : (codeRules.map Prod.fst).Nodup ∧ (∀ entry ∈ codeRules, '.' ∉ entry.1.toList) ∧
    (∀ entry ∈ codeRules, ∀ rule ∈ entry.2, Listed rule) ∧ (schemaFor codeRules).Valid [("code",.string "100")] ∧
    (Validator.fromRules codeRules).validate plainFormats (.object [("code",.string "100")]) ≠ .ok () := by
  have hlisted : ∀ entry ∈ codeRules, ∀ rule ∈ entry.2, Listed rule := by
    have hbound : Integral (.finite 5) := integral_natCast (n := 5) (by decide)
    simp [codeRules,Listed,hbound]
  have hvalid : (schemaFor codeRules).Valid [("code",.string "100")] := by
    apply valid_single
    constructor
    · trivial
    · exact nofun
    · intro n s hn hs
      cases hn
      cases hs
      decide
    all_goals exact nofun
  exact ⟨by decide,by decide,hlisted,hvalid,by decide +kernel⟩

end Rainier.OpenApi
