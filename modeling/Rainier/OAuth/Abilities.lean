import Rainier.OAuth.Model

/-! # Scopes as abilities

A scope goes over as itself and as the wildcard of its namespace. An ability with a star at its end is a
wildcard already, which a scope is not.
-/
namespace Rainier.OAuth
open Rainier

structure Abilities where
  held : List String
  deriving DecidableEq, Repr

namespace Abilities

/-- What stands before the star at the end. -/
def stripStar (held : String) : Option String :=
  if held.toList.getLast? = some '*' then some (String.ofList held.toList.dropLast) else none

/-- `*`, the ability itself, or everything that begins as a wildcard does. -/
def grants (held wanted : String) : Bool :=
  if held = everything ∨ held = wanted then true
  else
    match stripStar held with
    | some start => start ≠ "" && start.toList.isPrefixOf wanted.toList
    | none => false

def can (abilities : Abilities) (ability : String) : Bool := abilities.held.any (grants · ability)

end Abilities

/-- Each scope as itself and as its namespace's wildcard. -/
def toAbilities (scopes : List String) : Abilities :=
  ⟨scopes.flatMap fun scope => if scope = everything then [scope] else [scope,scope ++ ":*"]⟩

/-- A scope that reads as a wildcard of what is wanted. -/
def Starred (scope wanted : String) : Prop := ∃ start, start ≠ "" ∧ scope = start ++ "*" ∧ start.toList <+: wanted.toList

/-- What a scope stands for: everything, itself, and what is in its namespace. -/
def Covers (scope wanted : String) : Prop :=
  scope = everything ∨ scope = wanted ∨ (scope ++ ":").toList <+: wanted.toList

theorem grants_iff (held wanted : String) : grants held wanted = true ↔ Covers held wanted := by
  rw [grants,Covers,Bool.or_eq_true,Bool.or_eq_true,decide_eq_true_eq,decide_eq_true_eq,List.isPrefixOf_iff_prefix,
    String.toList_append,or_assoc]
  rfl

theorem stripStar_eq_some {held start : String} : Abilities.stripStar held = some start ↔ held = start ++ "*" := by
  rw [Abilities.stripStar]
  constructor
  · intro h
    split_ifs at h with hlast
    cases h
    apply String.toList_injective
    obtain ⟨front,hfront⟩ := List.getLast?_eq_some_iff.1 hlast
    simp [hfront]
  · rintro rfl
    simp

theorem abilityGrants_iff (held wanted : String) :
    Abilities.grants held wanted = true ↔ held = everything ∨ held = wanted ∨ Starred held wanted := by
  rw [Abilities.grants]
  split_ifs with hsame
  · exact iff_of_true rfl (hsame.imp_right .inl)
  · have hstarred : (held = everything ∨ held = wanted ∨ Starred held wanted) ↔ Starred held wanted := by
      rw [← or_assoc,or_iff_right hsame]
    rw [hstarred]
    cases hstrip : Abilities.stripStar held with
    | none =>
      refine iff_of_false (by simp) ?_
      rintro ⟨start,-,heq,-⟩
      rw [stripStar_eq_some.2 heq] at hstrip
      cases hstrip
    | some start =>
      rw [Bool.and_eq_true,decide_eq_true_eq,List.isPrefixOf_iff_prefix]
      constructor
      · rintro ⟨hne,hstart⟩
        exact ⟨start,hne,stripStar_eq_some.1 hstrip,hstart⟩
      · rintro ⟨start',hne,heq,hstart⟩
        rw [stripStar_eq_some.2 heq] at hstrip
        cases hstrip
        exact ⟨hne,hstart⟩

/-- The wildcard of a namespace grants what is in it. -/
theorem starred_namespace (scope wanted : String) :
    Abilities.grants (scope ++ ":*") wanted = true ↔ (scope ++ ":").toList <+: wanted.toList := by
  have hsplit : scope ++ ":*" = scope ++ ":" ++ "*" := by
    rw [String.append_assoc]
    rfl
  rw [abilityGrants_iff]
  constructor
  · rintro (heq | heq | ⟨start,-,heq,hstart⟩)
    · have hlength := congrArg (fun text => text.toList.length) heq
      simp [everything] at hlength
    · rw [← heq,hsplit,String.toList_append (s := scope ++ ":")]
      exact List.prefix_append _ _
    · rw [hsplit] at heq
      have hlist := congrArg String.toList heq
      rw [String.toList_append,String.toList_append (s := start)] at hlist
      rw [List.append_cancel_right hlist]
      exact hstart
  · intro hstart
    refine .inr (.inr ⟨scope ++ ":",?_,hsplit,hstart⟩)
    intro hempty
    have hlength := congrArg (fun text => text.toList.length) hempty
    simp at hlength

theorem can_iff (scopes : List String) (wanted : String) :
    (toAbilities scopes).can wanted = true ↔ ∃ scope ∈ scopes, Covers scope wanted ∨ Starred scope wanted := by
  have hone : ∀ scope, (∃ held ∈ if scope = everything then [scope] else [scope,scope ++ ":*"], Abilities.grants held wanted = true) ↔
      Covers scope wanted ∨ Starred scope wanted := by
    intro scope
    split_ifs with heverything
    · simp only [List.mem_singleton,exists_eq_left,abilityGrants_iff,Covers,heverything,true_or]
    · simp only [List.mem_cons,List.not_mem_nil,or_false,exists_eq_or_imp,exists_eq_left,abilityGrants_iff scope,
        starred_namespace,Covers]
      tauto
  rw [Abilities.can,toAbilities,List.any_eq_true]
  constructor
  · rintro ⟨held,hheld,hgrants⟩
    obtain ⟨scope,hscope,hmem⟩ := List.mem_flatMap.1 hheld
    exact ⟨scope,hscope,(hone scope).1 ⟨held,hmem,hgrants⟩⟩
  · rintro ⟨scope,hscope,hcovers⟩
    obtain ⟨held,hmem,hgrants⟩ := (hone scope).2 hcovers
    exact ⟨held,List.mem_flatMap.2 ⟨scope,hscope,hmem⟩,hgrants⟩

theorem heldGrants_iff (scopes : List String) (wanted : String) :
    heldGrants scopes wanted = true ↔ ∃ scope ∈ scopes, Covers scope wanted := by
  simp only [heldGrants,List.any_eq_true,grants_iff]

theorem Covers.trans {a b c : String} (hab : Covers a b) (hbc : Covers b c) : Covers a c := by
  rcases hab with hall | rfl | hstart
  · exact .inl hall
  · exact hbc
  · rcases hbc with hall | rfl | hstart'
    · -- nothing but the star stands for the star
      rw [hall] at hstart
      have hmem : ':' ∈ everything.toList := hstart.subset (by simp)
      exact absurd hmem (by decide)
    · exact .inr (.inr hstart)
    · refine .inr (.inr (hstart.trans ?_))
      rw [String.toList_append] at hstart'
      exact (List.prefix_append _ _).trans hstart'

/-- Both checks agree unless a scope with a star at its end is all that reaches what is wanted, and scopes are in a preorder. -/
theorem abilities_agree_iff (scopes : List String) (wanted : String) :
    ((toAbilities scopes).can wanted = heldGrants scopes wanted ↔
      ∀ scope ∈ scopes, Starred scope wanted → ∃ held ∈ scopes, Covers held wanted) ∧
      (∀ a, grants a a = true) ∧ ∀ a b c, grants a b = true → grants b c = true → grants a c = true := by
  refine ⟨?_,fun a => ?_,fun a b c hab hbc => ?_⟩
  · rw [Bool.eq_iff_iff,can_iff,heldGrants_iff]
    constructor
    · intro h scope hscope hstarred
      exact h.1 ⟨scope,hscope,.inr hstarred⟩
    · intro h
      constructor
      · rintro ⟨scope,hscope,hcovers | hstarred⟩
        · exact ⟨scope,hscope,hcovers⟩
        · exact h scope hscope hstarred
      · rintro ⟨scope,hscope,hcovers⟩
        exact ⟨scope,hscope,.inl hcovers⟩
  · exact (grants_iff a a).2 (.inr (.inl rfl))
  · exact (grants_iff a c).2 (((grants_iff a b).1 hab).trans ((grants_iff b c).1 hbc))

theorem abilities_agree_vehicles : (toAbilities ["vehicles"]).can "vehicles:read" = heldGrants ["vehicles"] "vehicles:read" ∧
    grants "vehicles" "vehicles:read:location" = true :=
  ⟨(abilities_agree_iff _ _).1.2 fun scope hscope _ => ⟨scope,hscope,(grants_iff _ _).1 (by
      rw [List.mem_singleton.1 hscope]
      decide)⟩,
    (abilities_agree_iff ["vehicles"] "vehicles:read").2.2 "vehicles" "vehicles:read" "vehicles:read:location" (by decide) (by decide)⟩

theorem starred_scope_disagrees : ¬ ∀ scopes wanted, (toAbilities scopes).can wanted = heldGrants scopes wanted := by
  intro h
  exact absurd (h ["read*"] "readers") (by decide)

end Rainier.OAuth
