import Mathlib.Data.List.Forall2
import Mathlib.Data.List.TakeWhile
import Rainier.Validation.Wildcards

/-! # The order of a rule list

The loop over the rules of a field stops at the first rule that has nothing to say of a
value that is not there. A presence rule behind it is never asked, so that the order of
the rules can decide what is valid.
-/
namespace Rainier.Validation
open Rainier
variable {D : Type}

/-- The same patterns and messages, with the rules of each pattern in some order. -/
structure Reordered (v w : Validator D) : Prop where
  messages : w.messages = v.messages
  rules : List.Forall₂ (fun a b => b.1 = a.1 ∧ b.2.Perm a.2) v.rules w.rules

/-- In any order of the rules the input is as valid as in the one given, and a list with
`required` in it refuses every value that is absent, null or blank. -/
structure OrderFree (fm : Formats D) (v : Validator D) (input : Json) : Prop where
  verdict : ∀ w, Reordered v w → (w.validate fm input = .ok () ↔ v.validate fm input = .ok ())
  required : ∀ w, Reordered v w → ∀ entry ∈ w.rules, .required ∈ entry.2 → ∀ field ∈ expand entry.1 input,
    isFilled (lookup input field) = false → w.checkField fm entry.1 field (lookup input field) input entry.2 [] ≠ []

/-- Absent or null. -/
def missing : Option Json → Bool
  | none | some .null => true
  | some _ => false

/-- Some rule of the list, taken for itself, refuses the value. -/
def Fails (fm : Formats D) (input : Json) (field : String) (rules : List (Rule D)) : Prop :=
  ∃ rule ∈ rules, ∃ message, rule.check fm field (lookup input field) input = .fail message

/-- The value is absent or null, and some rule of the list is not about presence. -/
def Skips (input : Json) (field : String) (rules : List (Rule D)) : Prop :=
  missing (lookup input field) = true ∧ ∃ rule ∈ rules, rule.appliesToMissing = false

/-- Refused by one rule and passed over by another. -/
def Torn (fm : Formats D) (input : Json) (field : String) (rules : List (Rule D)) : Prop :=
  Fails fm input field rules ∧ Skips input field rules

/-- Refused, and no rule passes it over. -/
def Firm (fm : Formats D) (input : Json) (field : String) (rules : List (Rule D)) : Prop :=
  Fails fm input field rules ∧ ¬ Skips input field rules

section Lists
variable {fm : Formats D} {input : Json} {field : String} {rule : Rule D} {rules others : List (Rule D)}

theorem checkValue_ne_skip (given : Json) : rule.checkValue fm field given input ≠ .skip := by
  have hcheck (passed : Bool) (message : String) : Validation.check passed message ≠ .skip := by
    cases passed <;> simp [Validation.check]
  cases rule with
  | required | present | notNull => simp [Rule.checkValue]
  | min _ | max _ | size _ =>
    simp only [Rule.checkValue]
    split <;> exact hcheck _ _
  | _ => exact hcheck _ _

theorem check_of_other (h : rule.appliesToMissing = false) (given : Json) (hgiven : given ≠ .null) :
    rule.check fm field (some given) input = rule.checkValue fm field given input := by
  cases rule with
  | required | present | notNull => cases h
  | _ => cases given with
    | null => exact absurd rfl hgiven
    | _ => rfl

theorem check_ne_skip_of_presence {value : Option Json} (h : rule.appliesToMissing = true) :
    rule.check fm field value input ≠ .skip := by
  cases rule with
  | required | present | notNull =>
    simp only [Rule.check]
    split <;> simp
  | _ => cases h

/-- Only a missing value is passed over, and not by a presence rule. -/
theorem check_eq_skip {value : Option Json} :
    rule.check fm field value input = .skip ↔ missing value = true ∧ rule.appliesToMissing = false := by
  cases happlies : rule.appliesToMissing with
  | true => simp [check_ne_skip_of_presence happlies]
  | false =>
    match value with
    | none | some .null =>
      cases rule with
      | required | present | notNull => cases happlies
      | _ => simp [Rule.check,missing]
    | some (.bool _) | some (.number _) | some (.string _) | some (.array _) | some (.object _) =>
      rw [check_of_other happlies _ (by simp)]
      simp [missing,checkValue_ne_skip]

theorem skips_iff : Skips input field rules ↔ ∃ rule ∈ rules, rule.check fm field (lookup input field) input = .skip := by
  constructor
  · rintro ⟨hmissing,rule,hrule,hother⟩
    exact ⟨rule,hrule,check_eq_skip.mpr ⟨hmissing,hother⟩⟩
  · rintro ⟨rule,hrule,hskip⟩
    obtain ⟨hmissing,hother⟩ := check_eq_skip.mp hskip
    exact ⟨hmissing,rule,hrule,hother⟩

/-- What no rule refuses is passed, wherever the loop stops. -/
theorem passes_of_not_fails (h : ¬ Fails fm input field rules) : Passes fm field (lookup input field) input rules := by
  intro rule hrule
  have hskip := List.mem_takeWhile_imp hrule
  have hmem := List.takeWhile_subset _ hrule
  cases hcheck : rule.check fm field (lookup input field) input with
  | pass => rfl
  | skip => simp [hcheck] at hskip
  | fail message => exact absurd ⟨rule,hmem,message,hcheck⟩ h

/-- Where no rule is passed over they are all asked. -/
theorem passes_iff_of_not_skips (h : ¬ Skips input field rules) :
    Passes fm field (lookup input field) input rules ↔ ¬ Fails fm input field rules := by
  constructor
  · rintro hpasses ⟨rule,hrule,message,hfail⟩
    have hall : rules.takeWhile (fun rule => rule.check fm field (lookup input field) input ≠ .skip) = rules := by
      rw [List.takeWhile_eq_self_iff]
      intro other hother
      exact decide_eq_true fun hskip => h (skips_iff.mpr ⟨other,hother,hskip⟩)
    have hpass := hpasses rule (hall.symm ▸ hrule)
    rw [hfail] at hpass
    cases hpass
  · exact passes_of_not_fails

theorem fails_perm (h : others.Perm rules) : Fails fm input field others ↔ Fails fm input field rules := by
  simp only [Fails,h.mem_iff]

theorem skips_perm (h : others.Perm rules) : Skips input field others ↔ Skips input field rules := by
  simp only [Skips,h.mem_iff]

/-- A value that is not torn is passed in every order or in none. -/
theorem passes_perm_of_not_torn (h : others.Perm rules) (hwhole : ¬ Torn fm input field rules) :
    Passes fm field (lookup input field) input others ↔ Passes fm field (lookup input field) input rules := by
  by_cases hfails : Fails fm input field rules
  · have hskips : ¬ Skips input field rules := fun hskips => hwhole ⟨hfails,hskips⟩
    rw [passes_iff_of_not_skips hskips,passes_iff_of_not_skips (mt (skips_perm h).mp hskips),fails_perm h]
  · have hothers : ¬ Fails fm input field others := mt (fails_perm h).mp hfails
    exact iff_of_true (passes_of_not_fails hothers) (passes_of_not_fails hfails)

theorem not_passes_of_firm (h : Firm fm input field rules) : ¬ Passes fm field (lookup input field) input rules := by
  rw [passes_iff_of_not_skips h.2,not_not]
  exact h.1

theorem fails_of_required (h : .required ∈ rules) (hblank : isFilled (lookup input field) = false) :
    Fails fm input field rules :=
  ⟨.required,h,"The " ++ label field ++ " field is required.",by simp [Rule.check,hblank]⟩

end Lists

/-! ## Two orders

With the presence rules last a missing value is passed whenever there is another rule;
with the presence rules first they are all asked.
-/

def presenceLast (rules : List (Rule D)) : List (Rule D) :=
  rules.filter (fun rule => !rule.appliesToMissing) ++ rules.filter fun rule => !!rule.appliesToMissing

def presenceFirst (rules : List (Rule D)) : List (Rule D) :=
  rules.filter Rule.appliesToMissing ++ rules.filter fun rule => !rule.appliesToMissing

section Orders
variable {fm : Formats D} {input : Json} {field : String} {rules : List (Rule D)}

theorem presenceLast_perm (rules : List (Rule D)) : (presenceLast rules).Perm rules := List.filter_append_perm _ rules

theorem presenceFirst_perm (rules : List (Rule D)) : (presenceFirst rules).Perm rules := List.filter_append_perm _ rules

theorem passes_presenceLast (h : Skips input field rules) :
    Passes fm field (lookup input field) input (presenceLast rules) := by
  obtain ⟨hmissing,rule,hrule,hother⟩ := h
  have hmem : rule ∈ rules.filter (fun rule => !rule.appliesToMissing) := List.mem_filter.mpr ⟨hrule,by simp [hother]⟩
  obtain ⟨first,rest,hsplit⟩ := List.exists_cons_of_ne_nil (List.ne_nil_of_mem hmem)
  have hfirst : first ∈ rules.filter (fun rule => !rule.appliesToMissing) := hsplit ▸ List.mem_cons_self
  rw [presenceLast,hsplit,List.cons_append,passes_cons]
  exact .inl (check_eq_skip.mpr ⟨hmissing,by simpa using (List.mem_filter.mp hfirst).2⟩)

theorem not_passes_presenceFirst (h : Torn fm input field rules) :
    ¬ Passes fm field (lookup input field) input (presenceFirst rules) := by
  obtain ⟨⟨rule,hrule,message,hfail⟩,hmissing,_⟩ := h
  have happlies : rule.appliesToMissing = true := by
    by_contra hother
    rw [check_eq_skip.mpr ⟨hmissing,by simpa using hother⟩] at hfail
    cases hfail
  intro hpasses
  have hasked : rule ∈ (presenceFirst rules).takeWhile
      (fun rule => rule.check fm field (lookup input field) input ≠ .skip) := by
    rw [presenceFirst,List.takeWhile_append_of_pos]
    · exact List.mem_append_left _ (List.mem_filter.mpr ⟨hrule,happlies⟩)
    · intro other hother
      exact decide_eq_true (check_ne_skip_of_presence (List.mem_filter.mp hother).2)
  have hpass := hpasses rule hasked
  rw [hfail] at hpass
  cases hpass

end Orders

/-! ## Validators -/

section Validators
variable {fm : Formats D} {v w : Validator D} {input : Json}

theorem validate_ok_iff : v.validate fm input = .ok () ↔ ∀ entry ∈ v.rules, ∀ field ∈ expand entry.1 input,
    Passes fm field (lookup input field) input entry.2 := by
  rw [validate_eq_ok]
  simp only [mem_fields_errorsOf,not_exists,not_and,not_not]
  constructor
  · intro h entry hentry field hfield
    exact h field entry hentry hfield
  · intro h key entry hentry hkey
    exact h entry hentry key hkey

/-- The loop over one list adds an error just when the list does not pass the value. -/
theorem checkField_ne_nil {pattern field : String} {value : Option Json} {rules : List (Rule D)} :
    v.checkField fm pattern field value input rules [] ≠ [] ↔ ¬ Passes fm field value input rules := by
  have hmem (key : String) : key ∈ (v.checkField fm pattern field value input rules []).fields ↔
      key ∈ ValidationErrors.fields [] ∨ (key = field ∧ ¬ Passes fm field value input rules) := mem_fields_checkField rules []
  constructor
  · intro hne
    obtain ⟨entry,hentry⟩ := List.exists_mem_of_ne_nil _ hne
    rcases (hmem entry.1).mp (List.mem_map_of_mem hentry) with hnil | ⟨_,hfails⟩
    · cases hnil
    · exact hfails
  · intro hfails hnil
    have hfield := (hmem field).mpr (.inr ⟨rfl,hfails⟩)
    rw [hnil] at hfield
    cases hfield

theorem Reordered.of_map {f : List (Rule D) → List (Rule D)} (h : ∀ rules, (f rules).Perm rules) (v : Validator D) :
    Reordered v ⟨v.rules.map fun entry => (entry.1,f entry.2),v.messages⟩ where
  messages := rfl
  rules := by
    rw [List.forall₂_map_right_iff,List.forall₂_same]
    exact fun entry _ => ⟨rfl,h entry.2⟩

theorem Reordered.exists_left (h : Reordered v w) {entry : String × List (Rule D)} (hentry : entry ∈ w.rules) :
    ∃ original ∈ v.rules, entry.1 = original.1 ∧ entry.2.Perm original.2 := by
  obtain ⟨i,hi,rfl⟩ := List.getElem_of_mem hentry
  have hv : i < v.rules.length := h.rules.length_eq ▸ hi
  exact ⟨v.rules[i],List.getElem_mem hv,h.rules.get hv hi⟩

theorem Reordered.exists_right (h : Reordered v w) {entry : String × List (Rule D)} (hentry : entry ∈ v.rules) :
    ∃ reordered ∈ w.rules, reordered.1 = entry.1 ∧ reordered.2.Perm entry.2 := by
  obtain ⟨i,hi,rfl⟩ := List.getElem_of_mem hentry
  have hw : i < w.rules.length := h.rules.length_eq ▸ hi
  exact ⟨w.rules[i],List.getElem_mem hw,h.rules.get hi hw⟩

/-- Where no value is torn, an order passes what any other passes. -/
theorem validate_reordered_of_whole (h : Reordered v w)
    (hwhole : ∀ entry ∈ v.rules, ∀ field ∈ expand entry.1 input, ¬ Torn fm input field entry.2) :
    w.validate fm input = .ok () ↔ v.validate fm input = .ok () := by
  rw [validate_ok_iff,validate_ok_iff]
  constructor
  · intro hw entry hentry field hfield
    obtain ⟨reordered,hmem,hpattern,hperm⟩ := h.exists_right hentry
    exact (passes_perm_of_not_torn hperm (hwhole entry hentry field hfield)).mp
      (hw reordered hmem field (hpattern ▸ hfield))
  · intro hv entry hentry field hfield
    obtain ⟨original,hmem,hpattern,hperm⟩ := h.exists_left hentry
    rw [hpattern] at hfield
    exact (passes_perm_of_not_torn hperm (hwhole original hmem field hfield)).mpr (hv original hmem field hfield)

/-- A value that is firmly refused makes the input invalid in every order. -/
theorem validate_reordered_of_firm (h : Reordered v w) {entry : String × List (Rule D)} (hentry : entry ∈ v.rules)
    {field : String} (hfield : field ∈ expand entry.1 input) (hfirm : Firm fm input field entry.2) :
    w.validate fm input ≠ .ok () := by
  obtain ⟨reordered,hmem,hpattern,hperm⟩ := h.exists_right hentry
  have hfirm' : Firm fm input field reordered.2 := ⟨(fails_perm hperm).mpr hfirm.1,mt (skips_perm hperm).mp hfirm.2⟩
  rw [Ne,validate_ok_iff]
  intro hall
  exact not_passes_of_firm hfirm' (hall reordered hmem field (hpattern ▸ hfield))

theorem Reordered.refl (v : Validator D) : Reordered v v :=
  ⟨rfl,List.forall₂_same.mpr fun _ _ => ⟨rfl,List.Perm.refl _⟩⟩

/-- A list with `required` in it that is not torn refuses what is not filled, in any order. -/
theorem checkField_required (h : Reordered v w)
    (hwhole : ∀ entry ∈ v.rules, .required ∈ entry.2 → ∀ field ∈ expand entry.1 input, ¬ Torn fm input field entry.2)
    {entry : String × List (Rule D)} (hentry : entry ∈ w.rules) (hrequired : .required ∈ entry.2) {field : String}
    (hfield : field ∈ expand entry.1 input) (hblank : isFilled (lookup input field) = false) :
    w.checkField fm entry.1 field (lookup input field) input entry.2 [] ≠ [] := by
  obtain ⟨original,hmem,hpattern,hperm⟩ := h.exists_left hentry
  have hin := hperm.mem_iff.mp hrequired
  have hfails : Fails fm input field original.2 := fails_of_required hin hblank
  have htorn := hwhole original hmem hin field (hpattern ▸ hfield)
  have hskips : ¬ Skips input field original.2 := fun hskips => htorn ⟨hfails,hskips⟩
  rw [checkField_ne_nil]
  exact not_passes_of_firm ⟨(fails_perm hperm).mpr hfails,mt (skips_perm hperm).mp hskips⟩

/-- With the presence rules last only what is firmly refused is refused. -/
theorem exists_firm_of_presenceLast
    (h : Validator.validate fm ⟨v.rules.map fun entry => (entry.1,presenceLast entry.2),v.messages⟩ input ≠ .ok ()) :
    ∃ entry ∈ v.rules, ∃ field ∈ expand entry.1 input, Firm fm input field entry.2 := by
  rw [Ne,validate_ok_iff] at h
  simp only [List.forall_mem_map,not_forall] at h
  obtain ⟨entry,hentry,field,hfield,hfails⟩ := h
  refine ⟨entry,hentry,field,hfield,?_,fun hskips => hfails (passes_presenceLast hskips)⟩
  by_contra hnone
  exact hfails (passes_of_not_fails (mt (fails_perm (presenceLast_perm entry.2)).mp hnone))

/-- For every validator and input: the order of the rules decides nothing just when no
value is torn, or some value is firmly refused and none is torn that is required. -/
theorem orderFree_iff (fm : Formats D) (v : Validator D) (input : Json) : OrderFree fm v input ↔
    (∀ entry ∈ v.rules, ∀ field ∈ expand entry.1 input, ¬ Torn fm input field entry.2) ∨
      ((∃ entry ∈ v.rules, ∃ field ∈ expand entry.1 input, Firm fm input field entry.2) ∧
        ∀ entry ∈ v.rules, .required ∈ entry.2 → ∀ field ∈ expand entry.1 input, ¬ Torn fm input field entry.2) := by
  constructor
  · rintro ⟨hverdict,hrequired⟩
    by_cases hwhole : ∀ entry ∈ v.rules, ∀ field ∈ expand entry.1 input, ¬ Torn fm input field entry.2
    · exact .inl hwhole
    simp only [not_forall,not_not] at hwhole
    obtain ⟨entry,hentry,field,hfield,htorn⟩ := hwhole
    refine .inr ⟨exists_firm_of_presenceLast fun hlast => ?_,fun entry hentry hin field hfield htorn => ?_⟩
    · -- with the presence rules first the torn value is refused
      have hfirst := (hverdict _ (.of_map presenceFirst_perm v)).mpr ((hverdict _ (.of_map presenceLast_perm v)).mp hlast)
      rw [validate_ok_iff] at hfirst
      exact not_passes_presenceFirst htorn
        (hfirst (entry.1,presenceFirst entry.2) (List.mem_map_of_mem hentry) field hfield)
    · have hblank : isFilled (lookup input field) = false := by
        have hmissing := htorn.2.1
        match hvalue : lookup input field with
        | none | some .null => rfl
        | some (.bool _) | some (.number _) | some (.string _) | some (.array _) | some (.object _) =>
          rw [hvalue] at hmissing
          cases hmissing
      refine checkField_ne_nil.mp (hrequired _ (.of_map presenceLast_perm v) (entry.1,presenceLast entry.2)
        (List.mem_map_of_mem hentry) ((presenceLast_perm entry.2).mem_iff.mpr hin) field hfield hblank) ?_
      exact passes_presenceLast htorn.2
  · rintro (hwhole | ⟨⟨entry,hentry,field,hfield,hfirm⟩,hrequired⟩)
    · exact ⟨fun w hw => validate_reordered_of_whole hw hwhole,fun w hw _ hentry hin _ hfield hblank =>
        checkField_required hw (fun entry hentry _ => hwhole entry hentry) hentry hin hfield hblank⟩
    · have hnone (w : Validator D) (hw : Reordered v w) := validate_reordered_of_firm hw hentry hfield hfirm
      exact ⟨fun w hw => iff_of_false (hnone w hw) (hnone v (.refl v)),fun w hw _ hentry hin _ hfield hblank =>
        checkField_required hw hrequired hentry hin hfield hblank⟩

end Validators

/-- An address that is required, and absent: refused in one order and not in the other. -/
theorem required_after_email :
    Validator.validate plainFormats (.fromRules [("email",[.required,.email])]) (.object []) =
        .error [("email",["The email field is required."])] ∧
      Validator.validate plainFormats (.fromRules [("email",[.email,.required])]) (.object []) = .ok () ∧
      ¬ OrderFree plainFormats (.fromRules [("email",[.required,.email])]) (.object []) := by
  have hfirst : Validator.validate plainFormats (.fromRules [("email",[.required,.email])]) (.object []) =
      .error [("email",["The email field is required."])] := by decide
  have hlast : Validator.validate plainFormats (.fromRules [("email",[.email,.required])]) (.object []) = .ok () := by
    decide
  refine ⟨hfirst,hlast,fun h => ?_⟩
  have hswap : Reordered (D := Unit) (.fromRules [("email",[.required,.email])]) (.fromRules [("email",[.email,.required])]) :=
    ⟨rfl,.cons ⟨rfl,List.Perm.swap _ _ _⟩ .nil⟩
  have hok := (h.verdict _ hswap).mp hlast
  rw [hfirst] at hok
  cases hok

end Rainier.Validation
