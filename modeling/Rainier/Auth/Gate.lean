import Mathlib.Data.List.Induction
import Mathlib.Logic.Function.Basic

/-! # The gate

Abilities are registered under a name and checked for an actor and a subject of any type. What is
stored for one takes every subject and tests its type first, also where the check has no use for it.
-/
namespace Rainier.Auth

/-- `&dyn Any`: a value together with its type. -/
structure Dyn {T : Type} (Val : T → Type) where
  type : T
  value : Val type

variable {A T : Type} {Val : T → Type} [DecidableEq T]

def Dyn.downcastRef (s : T) (subject : Dyn Val) : Option (Val s) :=
  if h : subject.type = s then some (h ▸ subject.value) else none

/-- A check that is stored, whatever the type of its subject. -/
abbrev Ability (A : Type) {T : Type} (Val : T → Type) : Type := A → Option (Dyn Val) → Bool

abbrev BeforeCheck (A : Type) : Type := A → String → Option Bool

structure Gate (A : Type) {T : Type} (Val : T → Type) where
  abilities : String → Option (Ability A Val)
  before : List (BeforeCheck A)

namespace Gate

def new : Gate A Val := ⟨fun _ => none,[]⟩

/-- A subject of the wrong type is denied. -/
def erased (s : T) (check : A → Option (Val s) → Bool) : Ability A Val := fun user subject =>
  match subject with
  | some subject =>
    match subject.downcastRef s with
    | some typed => check user (some typed)
    | none => false
  | none => check user none

def define (gate : Gate A Val) (ability : String) (s : T) (check : A → Option (Val s) → Bool) : Gate A Val :=
  { gate with abilities := Function.update gate.abilities ability (some (erased s check)) }

/-- `unit` is the type `()`. -/
def defineSimple (unit : T) (gate : Gate A Val) (ability : String) (check : A → Bool) : Gate A Val :=
  gate.define ability unit fun user _ => check user

def addBefore (gate : Gate A Val) (check : BeforeCheck A) : Gate A Val := { gate with before := gate.before ++ [check] }

def allows (gate : Gate A Val) (ability : String) (actor : A) (subject : Option (Dyn Val)) : Bool :=
  match gate.before.findSome? fun before => before actor ability with
  | some decision => decision
  | none =>
    match gate.abilities ability with
    | some check => check actor subject
    | none => false

/-- A call of the builder. -/
inductive Call (A : Type) {T : Type} (Val : T → Type) where
  | define (ability : String) (s : T) (check : A → Option (Val s) → Bool)
  | defineSimple (ability : String) (check : A → Bool)
  | before (check : BeforeCheck A)

def apply (unit : T) (gate : Gate A Val) : Call A Val → Gate A Val
  | .define ability s check => gate.define ability s check
  | .defineSimple ability check => gate.defineSimple unit ability check
  | .before check => gate.addBefore check

def build (unit : T) (calls : List (Call A Val)) : Gate A Val := calls.foldl (apply unit) new

/-! ## What is to be decided -/

/-- An ability as it was defined. -/
inductive Definition (A : Type) {T : Type} (Val : T → Type) where
  | typed (s : T) (check : A → Option (Val s) → Bool)
  | simple (check : A → Bool)

/-- A check for subjects of one type denies the others, a simple one ignores its subject. -/
def Definition.answer (actor : A) (subject : Option (Dyn Val)) : Definition A Val → Bool
  | .typed s check =>
    match subject with
    | none => check actor none
    | some subject => if h : subject.type = s then check actor (some (h ▸ subject.value)) else false
  | .simple check => check actor

def Call.definition (ability : String) : Call A Val → Option (Definition A Val)
  | .define name s check => if name = ability then some (.typed s check) else none
  | .defineSimple name check => if name = ability then some (.simple check) else none
  | .before _ => none

def Call.decision (ability : String) (actor : A) : Call A Val → Option Bool
  | .before check => check actor ability
  | _ => none

/-- The last definition under the name. -/
def lastDefinition (ability : String) (calls : List (Call A Val)) : Option (Definition A Val) :=
  calls.reverse.findSome? (Call.definition ability)

/-- The first decision of the checks before. -/
def firstDecision (ability : String) (actor : A) (calls : List (Call A Val)) : Option Bool :=
  calls.findSome? (Call.decision ability actor)

def decision (calls : List (Call A Val)) (ability : String) (actor : A) (subject : Option (Dyn Val)) : Bool :=
  (firstDecision ability actor calls).getD (((lastDefinition ability calls).map (Definition.answer actor subject)).getD false)

/-! ## What is decided -/

section

variable {unit : T} {calls : List (Call A Val)} {call : Call A Val} {ability : String} {actor : A} {subject : Option (Dyn Val)}

/-- What is stored for a definition. -/
def Definition.stored (unit : T) : Definition A Val → Ability A Val
  | .typed s check => erased s check
  | .simple check => erased unit fun user _ => check user

theorem build_concat : build unit (calls ++ [call]) = (build unit calls).apply unit call := by
  rw [build,List.foldl_append,List.foldl_cons,List.foldl_nil,build]

theorem findSome?_concat {α β : Type} (f : α → Option β) (l : List α) (a : α) :
    (l ++ [a]).findSome? f = (l.findSome? f).or (f a) := by
  rw [List.findSome?_append,List.findSome?_singleton]

theorem before_build : (build unit calls).before.findSome? (fun before => before actor ability) = firstDecision ability actor calls := by
  induction calls using List.reverseRecOn with
  | nil => rfl
  | append_singleton calls call ih =>
    rw [build_concat,firstDecision,findSome?_concat,← firstDecision,← ih]
    cases call with
    | define name s check => simp only [apply,define,Call.decision,Option.or_none]
    | defineSimple name check => simp only [apply,defineSimple,define,Call.decision,Option.or_none]
    | before check => simp only [apply,addBefore,findSome?_concat,Call.decision]

omit [DecidableEq T] in
theorem lastDefinition_concat : lastDefinition ability (calls ++ [call]) =
    (call.definition ability).or (lastDefinition ability calls) := by
  rw [lastDefinition,List.reverse_concat,List.findSome?_cons,lastDefinition]
  cases call.definition ability <;> rfl

theorem abilities_build : (build unit calls).abilities ability = (lastDefinition ability calls).map (Definition.stored unit) := by
  induction calls using List.reverseRecOn with
  | nil => rfl
  | append_singleton calls call ih =>
    rw [build_concat,lastDefinition_concat]
    cases call with
    | define name s check =>
      by_cases hname : name = ability
      · simp [apply,define,Call.definition,Definition.stored,hname]
      · simp [apply,define,Call.definition,hname,Ne.symm hname,ih]
    | defineSimple name check =>
      by_cases hname : name = ability
      · simp [apply,defineSimple,define,Call.definition,Definition.stored,hname]
      · simp [apply,defineSimple,define,Call.definition,hname,Ne.symm hname,ih]
    | before check => simpa [apply,addBefore,Call.definition] using ih

theorem allows_build : (build unit calls).allows ability actor subject = (firstDecision ability actor calls).getD
    (((lastDefinition ability calls).map fun definition => definition.stored unit actor subject).getD false) := by
  rw [allows,before_build,abilities_build]
  cases firstDecision ability actor calls with
  | some decision => rfl
  | none => cases lastDefinition ability calls <;> rfl

/-- A check for subjects of a type is stored as it was meant. -/
theorem stored_typed (s : T) (check : A → Option (Val s) → Bool) :
    (Definition.typed s check).stored unit actor subject = (Definition.typed s check).answer actor subject := by
  cases subject with
  | none => rfl
  | some subject =>
    rw [Definition.stored,erased,Definition.answer,Dyn.downcastRef]
    by_cases htype : subject.type = s
    · simp only [dif_pos htype]
    · simp only [dif_neg htype]

/-- A simple one is stored as a check for subjects of the type `()`. -/
theorem stored_simple (check : A → Bool) : (.simple check : Definition A Val).stored unit actor subject =
    (decide (∀ s ∈ subject, s.type = unit) && check actor) := by
  cases subject with
  | none => simp [Definition.stored,erased]
  | some subject =>
    rw [Definition.stored,erased,Dyn.downcastRef]
    by_cases htype : subject.type = unit
    · simp [htype]
    · simp [htype]

/-- The gate decides what is to be decided, unless a simple check that grants gets a subject of
another type than `()`. -/
theorem allows_eq_decision_iff : (build unit calls).allows ability actor subject = decision calls ability actor subject ↔
    ∀ check, firstDecision ability actor calls = none → lastDefinition ability calls = some (.simple check) →
      (∃ s ∈ subject, s.type ≠ unit) → check actor = false := by
  rw [allows_build,decision]
  cases firstDecision ability actor calls with
  | some decision => simp
  | none =>
    cases lastDefinition ability calls with
    | none => simp
    | some definition =>
      cases definition with
      | typed s check => simp [stored_typed]
      | simple check =>
        simp only [Option.map_some,Option.getD_some,Option.getD_none,stored_simple,Definition.answer]
        cases subject with
        | none => simp
        | some subject =>
          by_cases htype : subject.type = unit
          · simp [htype]
          · cases hcheck : check actor with
            | false => simp [hcheck]
            | true => simp [htype,hcheck]

end

/-- An ability that everybody has is denied for a comment. -/
theorem simple_denies_subject :
    let calls : List (Call Unit fun _ : Bool => Unit) := [.defineSimple "posts.create" fun _ => true]
    (build true calls).allows "posts.create" () (some ⟨false,()⟩) ≠ decision calls "posts.create" () (some ⟨false,()⟩) := by
  decide

end Gate

end Rainier.Auth
