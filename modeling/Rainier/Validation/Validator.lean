import Rainier.Validation.Rule

/-! # The validator

Each pattern is expanded against the input, and the rules run on every field it stands
for. The failures are kept by field, in the order of the fields.
-/
namespace Rainier.Validation
open Rainier

/-- The messages of each field that failed. -/
abbrev ValidationErrors := List (String × List String)

/-- A message is added to those of its field. -/
def ValidationErrors.add : ValidationErrors → String → String → ValidationErrors
  | [], field, message => [(field,[message])]
  | (f,messages) :: rest, field, message =>
    if field = f then (f,messages ++ [message]) :: rest
    else if field < f then (field,[message]) :: (f,messages) :: rest
    else (f,messages) :: ValidationErrors.add rest field message

def ValidationErrors.fields (errors : ValidationErrors) : List String := errors.map Prod.fst

def join (start segment : String) : String := if start.isEmpty then segment else start ++ "." ++ segment

/-- The elements that are there; what is absent or not an array has none. -/
def indices : Option Json → List ℕ
  | some (.array items) => List.range items.length
  | _ => []

/-- The prefixes one prefix grows into with the next segment of a pattern. -/
def grow (input : Json) (segment start : String) : List String :=
  if segment ≠ "*" then [join start segment]
  else (indices (lookup input start)).map fun i => join start (Nat.repr i)

/-- The fields a pattern stands for. -/
def expand (pattern : String) (input : Json) : List String :=
  if '*' ∉ pattern.toList then [pattern]
  else (Text.split '.' pattern).foldl (fun expanded segment => expanded.flatMap (grow input segment)) [""]

structure Validator (D : Type) where
  rules : List (String × List (Rule D))
  messages : List (String × String)

namespace Validator
variable {D : Type}

def fromRules (rules : List (String × List (Rule D))) : Validator D := ⟨rules,[]⟩

def messageFor (v : Validator D) (pattern : String) (rule : Rule D) (message : String) : String :=
  ((v.messages.find? fun entry => entry.1 == pattern ++ "." ++ rule.name).map Prod.snd).getD message

variable (fm : Formats D)

/-- The loop over the rules of one field. -/
def checkField (v : Validator D) (pattern field : String) (value : Option Json) (input : Json) :
    List (Rule D) → ValidationErrors → ValidationErrors
  | [], errors => errors
  | rule :: rest, errors =>
    match rule.check fm field value input with
    | .pass => checkField v pattern field value input rest errors
    | .fail message =>
      let errors := errors.add field (v.messageFor pattern rule message)
      -- after a failed presence rule the others say nothing more
      if rule.appliesToMissing then errors else checkField v pattern field value input rest errors
    | .skip => errors

def errorsOf (v : Validator D) (input : Json) : ValidationErrors :=
  v.rules.foldl (fun errors entry => (expand entry.1 input).foldl
    (fun errors field => checkField fm v entry.1 field (lookup input field) input entry.2 errors) errors) []

def validate (v : Validator D) (input : Json) : Except ValidationErrors Unit :=
  let errors := v.errorsOf fm input
  if errors.isEmpty then .ok () else .error errors

end Validator

/-! ## What a rule list demands -/

/-- No rule refuses the value, of those before one that has nothing to say. -/
def Passes {D : Type} (fm : Formats D) (field : String) (value : Option Json) (input : Json) (rules : List (Rule D)) : Prop :=
  ∀ rule ∈ rules.takeWhile (fun rule => rule.check fm field value input ≠ .skip), rule.check fm field value input = .pass

section Errors
variable {errors : ValidationErrors} {field message key : String}

theorem mem_fields_add : key ∈ (errors.add field message).fields ↔ key = field ∨ key ∈ errors.fields := by
  induction errors with
  | nil => simp [ValidationErrors.add,ValidationErrors.fields]
  | cons entry rest ih =>
    obtain ⟨f,messages⟩ := entry
    rw [ValidationErrors.add]
    split
    · next heq => simp [ValidationErrors.fields,heq]
    · split
      · simp [ValidationErrors.fields]
      · simp only [ValidationErrors.fields] at ih
        simp only [ValidationErrors.fields,List.map_cons,List.mem_cons,ih]
        tauto

end Errors

section Loops
variable {D : Type} {fm : Formats D} {v : Validator D} {pattern field key : String} {value : Option Json} {input : Json}

theorem passes_cons {rule : Rule D} {rest : List (Rule D)} : Passes fm field value input (rule :: rest) ↔
    rule.check fm field value input = .skip ∨
      (rule.check fm field value input = .pass ∧ Passes fm field value input rest) := by
  rw [Passes,List.takeWhile_cons]
  by_cases hskip : rule.check fm field value input = .skip
  · simp [hskip]
  · simp [hskip,Passes]

/-- The loop over the rules adds its field just when they do not pass. -/
theorem mem_fields_checkField (rules : List (Rule D)) (errors : ValidationErrors) :
    key ∈ (v.checkField fm pattern field value input rules errors).fields ↔
      key ∈ errors.fields ∨ (key = field ∧ ¬ Passes fm field value input rules) := by
  induction rules generalizing errors with
  | nil => simp [Validator.checkField,Passes]
  | cons rule rest ih =>
    rw [Validator.checkField,passes_cons]
    cases hcheck : rule.check fm field value input with
    | pass => simp [ih]
    | skip => simp
    | fail message =>
      simp only [reduceCtorEq,false_or,false_and,not_false_eq_true,and_true]
      split
      · rw [mem_fields_add]
        tauto
      · rw [ih,mem_fields_add]
        tauto

theorem mem_fields_foldl {α : Type} {step : ValidationErrors → α → ValidationErrors} {adds : α → Prop}
    (hstep : ∀ errors a, key ∈ (step errors a).fields ↔ key ∈ errors.fields ∨ adds a) (as : List α)
    (errors : ValidationErrors) : key ∈ (as.foldl step errors).fields ↔ key ∈ errors.fields ∨ ∃ a ∈ as, adds a := by
  induction as generalizing errors with
  | nil => simp
  | cons a as ih =>
    rw [List.foldl_cons,ih,hstep]
    simp [or_assoc]

/-- A field failed if a pattern stands for it whose rules it does not pass. -/
theorem mem_fields_errorsOf : key ∈ (v.errorsOf fm input).fields ↔
    ∃ entry ∈ v.rules, key ∈ expand entry.1 input ∧ ¬ Passes fm key (lookup input key) input entry.2 := by
  have hentry (errors : ValidationErrors) (entry : String × List (Rule D)) :
      key ∈ ((expand entry.1 input).foldl (fun errors field =>
          v.checkField fm entry.1 field (lookup input field) input entry.2 errors) errors).fields ↔
        key ∈ errors.fields ∨ ∃ field ∈ expand entry.1 input,
          key = field ∧ ¬ Passes fm field (lookup input field) input entry.2 := by
    apply mem_fields_foldl
    intro errors field
    exact mem_fields_checkField entry.2 errors
  rw [Validator.errorsOf,mem_fields_foldl hentry]
  constructor
  · rintro (h | ⟨entry,hentry,field,hfield,rfl,hfails⟩)
    · cases h
    · exact ⟨entry,hentry,hfield,hfails⟩
  · rintro ⟨entry,hentry,hkey,hfails⟩
    exact .inr ⟨entry,hentry,key,hkey,rfl,hfails⟩

theorem validate_eq_ok : v.validate fm input = .ok () ↔ ∀ key, key ∉ (v.errorsOf fm input).fields := by
  rw [Validator.validate,ValidationErrors.fields]
  cases v.errorsOf fm input with
  | nil => simp
  | cons entry rest =>
    simp only [List.isEmpty_cons,Bool.false_eq_true,if_false,reduceCtorEq,false_iff,not_forall,not_not]
    exact ⟨entry.1,by simp⟩

theorem validate_eq_error {errors : ValidationErrors} (h : v.validate fm input = .error errors) :
    errors = v.errorsOf fm input := by
  rw [Validator.validate] at h
  split at h
  · cases h
  · cases h
    rfl

end Loops
end Rainier.Validation
