import Mathlib.Data.List.Forall2
import Mathlib.Data.List.Basic

/-! # Patterns with stars

A star stands for any run of characters. The matcher goes through the text once and remembers the
last star: where it gets stuck, that star takes one character more.
-/
namespace Rainier.Glob

/-! ## What a pattern stands for -/

section Meaning

variable {α : Type} {star p c : α} {pattern text front : List α}

inductive Matches (star : α) : List α → List α → Prop where
  | nil : Matches star [] []
  | empty {pattern text : List α} (h : Matches star pattern text) : Matches star (star :: pattern) text
  | more {pattern text : List α} (c : α) (h : Matches star (star :: pattern) text) : Matches star (star :: pattern) (c :: text)
  | same {pattern text : List α} {c : α} (hc : c ≠ star) (h : Matches star pattern text) :
      Matches star (c :: pattern) (c :: text)

theorem matches_nil : Matches star pattern [] ↔ ∀ p ∈ pattern, p = star := by
  constructor
  · intro h
    generalize htext : ([] : List α) = text at h
    induction h with
    | nil => simp
    | empty h ih => simpa using ih htext
    | more c h ih => cases htext
    | same hc h ih => cases htext
  · intro h
    induction pattern with
    | nil => exact .nil
    | cons p pattern ih =>
      obtain ⟨rfl,h⟩ := List.forall_mem_cons.1 h
      exact .empty (ih h)

theorem matches_self (star : α) (text : List α) : Matches star text text := by
  induction text with
  | nil => exact .nil
  | cons c text ih =>
    by_cases hc : c = star
    · rw [hc]
      exact .more star (.empty ih)
    · exact .same hc ih

/-- A star takes nothing, or a character. -/
theorem matches_star_cons :
    Matches star (star :: pattern) (c :: text) ↔ Matches star pattern (c :: text) ∨ Matches star (star :: pattern) text := by
  constructor
  · intro h
    cases h with
    | empty h => exact .inl h
    | more c h => exact .inr h
    | same hc h => exact absurd rfl hc
  · rintro (h | h)
    · exact .empty h
    · exact .more c h

theorem matches_star_nil : Matches star (star :: pattern) [] ↔ Matches star pattern [] := by
  rw [matches_nil,matches_nil]
  simp

theorem matches_cons (hp : p ≠ star) :
    Matches star (p :: pattern) (c :: text) ↔ p = c ∧ Matches star pattern text := by
  constructor
  · intro h
    cases h with
    | empty h => exact absurd rfl hp
    | more c h => exact absurd rfl hp
    | same hc h => exact ⟨rfl,h⟩
  · rintro ⟨rfl,h⟩
    exact .same hp h

theorem matches_cons_nil (hp : p ≠ star) : ¬ Matches star (p :: pattern) [] := by
  rw [matches_nil]
  simp [hp]

/-- A star takes any front of a text. -/
theorem matches_star_append (h : Matches star (star :: pattern) text) : Matches star (star :: pattern) (front ++ text) := by
  induction front with
  | nil => exact h
  | cons c front ih => exact .more c ih

theorem matches_star_iff : Matches star (star :: pattern) text ↔ ∃ front rest, text = front ++ rest ∧ Matches star pattern rest := by
  constructor
  · intro h
    induction text with
    | nil => exact ⟨[],[],rfl,matches_star_nil.1 h⟩
    | cons c text ih =>
      rcases matches_star_cons.1 h with h | h
      · exact ⟨[],c :: text,rfl,h⟩
      · obtain ⟨front,rest,rfl,hrest⟩ := ih h
        exact ⟨c :: front,rest,rfl,hrest⟩
  · rintro ⟨front,rest,rfl,hrest⟩
    exact matches_star_append (.empty hrest)

/-- A pattern with each star replaced by the next of the strings, and by nothing where there are no more. -/
def replaceStars [DecidableEq α] (star : α) : List α → List (List α) → List α
  | [], _ => []
  | p :: pattern, [] => if p = star then replaceStars star pattern [] else p :: replaceStars star pattern []
  | p :: pattern, s :: strings =>
    if p = star then s ++ replaceStars star pattern strings else p :: replaceStars star pattern (s :: strings)

/-- A text matches a pattern where it is the pattern with some string for each star. -/
theorem matches_iff_replaceStars [DecidableEq α] :
    Matches star pattern text ↔ ∃ strings, replaceStars star pattern strings = text := by
  constructor
  · intro h
    induction h with
    | nil => exact ⟨[],rfl⟩
    | @empty pattern text h ih =>
      obtain ⟨strings,rfl⟩ := ih
      exact ⟨[] :: strings,by simp [replaceStars]⟩
    | @more pattern text c h ih =>
      obtain ⟨strings,rfl⟩ := ih
      cases strings with
      | nil => exact ⟨[[c]],by simp [replaceStars]⟩
      | cons s strings => exact ⟨(c :: s) :: strings,by simp [replaceStars]⟩
    | @same pattern text c hc h ih =>
      obtain ⟨strings,rfl⟩ := ih
      refine ⟨strings,?_⟩
      cases strings <;> simp [replaceStars,hc]
  · rintro ⟨strings,rfl⟩
    induction pattern generalizing strings with
    | nil =>
      rw [replaceStars]
      exact .nil
    | cons p pattern ih =>
      by_cases hp : p = star
      · subst hp
        cases strings with
        | nil => simpa [replaceStars] using Matches.empty (ih [])
        | cons s strings => simpa [replaceStars] using matches_star_append (.empty (ih strings))
      · cases strings with
        | nil => simpa [replaceStars,hp] using Matches.same hp (ih [])
        | cons s strings => simpa [replaceStars,hp] using Matches.same hp (ih (s :: strings))

/-- A front without stars is matched by itself. -/
theorem matches_append (hfront : star ∉ front) :
    Matches star (front ++ pattern) text ↔ ∃ rest, text = front ++ rest ∧ Matches star pattern rest := by
  induction front generalizing text with
  | nil => simp
  | cons p front ih =>
    rw [List.mem_cons,not_or] at hfront
    obtain ⟨hp,hfront⟩ := hfront
    cases text with
    | nil => simpa using matches_cons_nil (Ne.symm hp)
    | cons c text =>
      rw [List.cons_append,matches_cons (Ne.symm hp),ih hfront]
      constructor
      · rintro ⟨rfl,rest,rfl,hrest⟩
        exact ⟨rest,rfl,hrest⟩
      · rintro ⟨rest,heq,hrest⟩
        obtain ⟨rfl,rfl⟩ := List.cons.inj heq
        exact ⟨rfl,rest,rfl,hrest⟩

/-- Behind a star, a front without stars is matched at some end of the text, not beyond what it was matched at. -/
theorem rest_of_star (hplain : star ∉ front) (h : Matches star (star :: (front ++ pattern)) (front ++ text)) :
    ∃ before after, text = before ++ after ∧ Matches star pattern after := by
  obtain ⟨front',rest,heq,h⟩ := matches_star_iff.1 h
  obtain ⟨after,rfl,hafter⟩ := (matches_append hplain).1 h
  have hends : after <:+ front ++ text := by
    rw [heq,← List.append_assoc]
    exact List.suffix_append _ _
  have hlength := congrArg List.length heq
  simp only [List.length_append] at hlength
  obtain ⟨before,hbefore⟩ := List.suffix_of_suffix_length_le hends (List.suffix_append front text) (by omega)
  exact ⟨before,after,hbefore.symm,hafter⟩

/-- Behind a star and a front of the text that was matched, `back` tells whether the star may take more. -/
structure Behind (star : α) (pattern front text : List α) (back : Bool) : Prop where
  plain : star ∉ front
  retries : back = true ↔ Matches star (star :: (front ++ pattern)) (front ++ text).tail

/-- Where the rest of the pattern is not matched here, the last star takes a character more. -/
theorem stuck_iff {back : Bool} (h : Behind star pattern front (c :: text) back)
    (hstuck : ¬ Matches star pattern (c :: text)) :
    back = true ↔ Matches star (star :: (front ++ pattern)) (front ++ c :: text) := by
  rw [h.retries]
  cases hfront : front ++ c :: text with
  | nil => simp at hfront
  | cons d rest =>
    rw [matches_star_cons,List.tail_cons]
    constructor
    · exact .inr
    · rintro (hhere | hmore)
      · rw [← hfront,matches_append h.plain] at hhere
        obtain ⟨rest,hrest,hhere⟩ := hhere
        rw [← List.append_cancel_left hrest] at hhere
        exact absurd hhere hstuck
      · exact hmore

end Meaning

/-! ## The matcher -/

section Matcher

variable {α : Type} [DecidableEq α] (star : α)

/-- What is left of a pattern at the end of the text. -/
def finish (pattern : List α) : Bool := pattern.all (· = star)

/-- With a star just read, before the given pattern and at the given text. -/
def fromStar (attempt : List α → Bool → Bool) (pattern : List α) : List α → Bool
  | [] => finish star pattern
  | c :: text => attempt (c :: text) (fromStar attempt pattern text)

/-- `back` is the answer of going back to the last star. -/
def loop : List α → List α → Bool → Bool
  | pattern,[],_ => finish star pattern
  | [],_ :: _,back => back
  | p :: pattern,c :: text,back =>
    if p = star then fromStar star (fun text back => loop pattern text back) pattern (c :: text)
    else if p = c then loop pattern text back
    else back

def wildcard (pattern text : List α) : Bool := loop star pattern text false

variable {star} {pattern text front : List α}

theorem finish_iff : finish star pattern = true ↔ Matches star pattern [] := by
  rw [matches_nil]
  simp [finish]

/-- All that the matcher has to try from a star on. -/
def Exact (star : α) (pattern : List α) : Prop :=
  ∀ front text back, Behind star pattern front text back →
    (loop star pattern text back = true ↔ Matches star (star :: (front ++ pattern)) (front ++ text))

theorem fromStar_iff (h : Exact star pattern) (text : List α) :
    fromStar star (fun text back => loop star pattern text back) pattern text = true ↔ Matches star (star :: pattern) text := by
  induction text with
  | nil => rw [fromStar,finish_iff,matches_star_nil]
  | cons c text ih => exact h [] (c :: text) _ ⟨List.not_mem_nil,ih⟩

/-- At the end of the text the last star has nothing more to take. -/
theorem end_iff (hplain : star ∉ front) :
    finish star pattern = true ↔ Matches star (star :: (front ++ pattern)) (front ++ []) := by
  rw [finish_iff]
  constructor
  · intro h
    apply Matches.empty
    exact (matches_append hplain).2 ⟨[],rfl,h⟩
  · intro h
    obtain ⟨before,after,hafter,h⟩ := rest_of_star hplain h
    obtain ⟨-,rfl⟩ := List.append_eq_nil_iff.1 hafter.symm
    exact h

theorem exact_nil : Exact star ([] : List α) := by
  intro front text back h
  cases text with
  | nil =>
    rw [loop]
    exact end_iff h.plain
  | cons c text =>
    rw [loop]
    apply stuck_iff h
    intro hmatch
    cases hmatch

theorem exact_cons {p : α} (ih : Exact star pattern) : Exact star (p :: pattern) := by
  intro front text back h
  cases text with
  | nil =>
    rw [loop]
    exact end_iff h.plain
  | cons c text =>
    rw [loop]
    split_ifs with hstar hsame
    · subst hstar
      rw [fromStar_iff ih]
      constructor
      · intro hmatch
        apply Matches.empty
        exact (matches_append h.plain).2 ⟨_,rfl,hmatch⟩
      · intro hmatch
        obtain ⟨before,after,hafter,hmatch⟩ := rest_of_star h.plain hmatch
        rw [hafter]
        exact matches_star_append hmatch
    · subst hsame
      have hnext : Behind star pattern (front ++ [p]) text back := by
        constructor
        · simpa using ⟨h.plain,Ne.symm hstar⟩
        · simpa using h.retries
      simpa using ih _ _ _ hnext
    · apply stuck_iff h
      rw [matches_cons hstar]
      exact fun hmatch => hsame hmatch.1

theorem exact_of_pattern (pattern : List α) : Exact star pattern := by
  induction pattern with
  | nil => exact exact_nil
  | cons p pattern ih => exact exact_cons ih

theorem wildcard_iff {pattern text : List α} : wildcard star pattern text = true ↔ Matches star pattern text := by
  rw [wildcard]
  induction pattern generalizing text with
  | nil =>
    cases text with
    | nil => simp [loop,finish_iff]
    | cons c text =>
      rw [loop]
      constructor
      · intro h
        cases h
      · intro h
        cases h
  | cons p pattern ih =>
    cases text with
    | nil => rw [loop,finish_iff]
    | cons c text =>
      rw [loop]
      split_ifs with hstar hsame
      · subst hstar
        exact fromStar_iff (exact_of_pattern pattern) _
      · rw [ih,matches_cons hstar]
        simp [hsame]
      · rw [matches_cons hstar]
        simp [hsame]

end Matcher

/-! ## The matcher over positions

The same matcher as a loop over two indices. What the loop is still to answer does not change from
round to round, and the last star, what it has taken and the index into the text grow in this order.
-/

section Positions

variable {α : Type} [DecidableEq α]

/-- Where the loop stands in the pattern and in the text, the last star, and what follows it takes up the text from. -/
structure Cursor where
  pi : ℕ
  ti : ℕ
  star : Option ℕ
  mark : ℕ

namespace Cursor

variable (star : α) (pattern text : List α)

def start : Cursor := ⟨0,0,none,0⟩

/-- One round of the loop: where it goes on, or the answer. -/
def round (c : Cursor) : Cursor ⊕ Bool :=
  if c.ti < text.length then
    if c.pi < pattern.length ∧ pattern[c.pi]? = some star then .inl ⟨c.pi + 1,c.ti,some c.pi,c.ti⟩
    else if c.pi < pattern.length ∧ pattern[c.pi]? = text[c.ti]? then .inl { c with pi := c.pi + 1, ti := c.ti + 1 }
    else
      match c.star with
      | some s => .inl ⟨s + 1,c.mark + 1,some s,c.mark + 1⟩
      | none => .inr false
  else .inr (finish star (pattern.drop c.pi))

/-- So many rounds at most. -/
def run : ℕ → Cursor → Option Bool
  | 0, _ => none
  | n + 1, c =>
    match round star pattern text c with
    | .inl c => run n c
    | .inr answer => some answer

/-- What going back to the last star would answer. -/
def back (c : Cursor) : Bool :=
  match c.star with
  | some s =>
    fromStar star (fun text back => loop star (pattern.drop (s + 1)) text back) (pattern.drop (s + 1)) (text.drop (c.mark + 1))
  | none => false

/-- What the loop is still to answer. -/
def value (c : Cursor) : Bool := loop star (pattern.drop c.pi) (text.drop c.ti) (c.back star pattern text)

variable {star pattern text} {c c' : Cursor} {answer : Bool}

/-- With neither a star nor the character of the text next in the pattern, the answer is that of the last star. -/
theorem loop_stuck (hti : c.ti < text.length) (hstar : ¬ (c.pi < pattern.length ∧ pattern[c.pi]? = some star))
    (hsame : ¬ (c.pi < pattern.length ∧ pattern[c.pi]? = text[c.ti]?)) (back : Bool) :
    loop star (pattern.drop c.pi) (text[c.ti] :: text.drop (c.ti + 1)) back = back := by
  by_cases hpi : c.pi < pattern.length
  · rw [List.getElem?_eq_getElem hpi,Option.some.injEq,not_and] at hstar
    rw [List.getElem?_eq_getElem hpi,List.getElem?_eq_getElem hti,Option.some.injEq,not_and] at hsame
    rw [List.drop_eq_getElem_cons hpi,loop,if_neg (hstar hpi),if_neg (hsame hpi)]
  · rw [List.drop_of_length_le (Nat.le_of_not_lt hpi),loop]

/-- Going back to a star, the matcher takes up the text where that star has taken one character more. -/
theorem fromStar_drop (attempt : List α → Bool → Bool) (rest : List α) {mark : ℕ}
    (hend : ∀ back, attempt [] back = finish star rest) :
    fromStar star attempt rest (text.drop mark) = attempt (text.drop mark) (fromStar star attempt rest (text.drop (mark + 1))) := by
  by_cases hmark : mark < text.length
  · rw [List.drop_eq_getElem_cons hmark,fromStar]
  · rw [List.drop_of_length_le (Nat.le_of_not_lt hmark),fromStar,hend]

/-- A round leaves what the loop is still to answer. -/
theorem value_round (h : round star pattern text c = .inl c') : c'.value star pattern text = c.value star pattern text := by
  unfold round at h
  split_ifs at h with hti hstar hsame
  · cases h
    obtain ⟨hpi,hp⟩ := hstar
    rw [List.getElem?_eq_getElem hpi,Option.some.injEq] at hp
    rw [value,value,List.drop_eq_getElem_cons hti,List.drop_eq_getElem_cons hpi,loop,if_pos hp,fromStar]
    rfl
  · cases h
    obtain ⟨hpi,hp⟩ := hsame
    rw [List.getElem?_eq_getElem hpi,List.getElem?_eq_getElem hti,Option.some.injEq] at hp
    rw [List.getElem?_eq_getElem hpi,Option.some.injEq] at hstar
    rw [value,value,List.drop_eq_getElem_cons hti,List.drop_eq_getElem_cons hpi,loop,if_neg fun he => hstar ⟨hpi,he⟩,if_pos hp]
    rfl
  · split at h
    · next s hs =>
      cases h
      have hback : c.back star pattern text = fromStar star (fun text back => loop star (pattern.drop (s + 1)) text back)
          (pattern.drop (s + 1)) (text.drop (c.mark + 1)) := by rw [back,hs]
      rw [value,value,List.drop_eq_getElem_cons hti,loop_stuck hti hstar hsame,hback,
        fromStar_drop _ _ fun back => by rw [loop]]
      rfl
    · cases h

theorem value_answer (h : round star pattern text c = .inr answer) : c.value star pattern text = answer := by
  unfold round at h
  split_ifs at h with hti hstar hsame
  · split at h
    · cases h
    · next hnone =>
      cases h
      have hback : c.back star pattern text = false := by rw [back,hnone]
      rw [value,hback,List.drop_eq_getElem_cons hti]
      exact loop_stuck hti hstar hsame _
  · cases h
    rw [value,List.drop_of_length_le (Nat.le_of_not_lt hti),loop]

/-- The last star is behind, and what it has taken ends before the index into the text. -/
structure Sound (c : Cursor) : Prop where
  star : ∀ s ∈ c.star, s < c.pi
  mark : c.mark ≤ c.ti

theorem sound_start : Sound start := ⟨nofun,Nat.le_refl 0⟩

theorem sound_round (h : c.Sound) (hround : round star pattern text c = .inl c') : c'.Sound := by
  unfold round at hround
  split_ifs at hround with hti hstar hsame
  · cases hround
    refine ⟨?_,Nat.le_refl _⟩
    rintro s ⟨⟩
    exact Nat.lt_succ_self _
  · cases hround
    exact ⟨fun s hs => Nat.lt_succ_of_lt (h.star s hs),Nat.le_succ_of_le h.mark⟩
  · split at hround
    · cases hround
      refine ⟨?_,Nat.le_refl _⟩
      rintro s ⟨⟩
      exact Nat.lt_succ_self _
    · cases hround

/-- What is left of the pattern behind the last star, of the text behind what it has taken, and of the text. -/
def rank (pattern text : List α) (c : Cursor) : ℕ × ℕ × ℕ :=
  (pattern.length - (c.star.map (· + 1)).getD 0,text.length - c.mark,text.length - c.ti)

theorem rank_round (h : c.Sound) (hround : round star pattern text c = .inl c') :
    Prod.Lex (· < ·) (Prod.Lex (· < ·) (· < ·)) (rank pattern text c') (rank pattern text c) := by
  have hmark := h.mark
  unfold round at hround
  split_ifs at hround with hti hstar hsame
  · cases hround
    have hlast : (c.star.map (· + 1)).getD 0 ≤ c.pi := by
      cases hc : c.star with
      | none => exact Nat.zero_le _
      | some s => exact h.star s hc
    have hpi := hstar.1
    refine .left _ _ ?_
    simp only [Option.map_some,Option.getD_some]
    omega
  · cases hround
    refine .right _ (.right _ ?_)
    simp only
    omega
  · split at hround
    · next s hs =>
      cases hround
      rw [rank,rank,hs]
      refine .right _ (.left _ _ ?_)
      simp only
      omega
    · cases hround

theorem run_ends (star : α) (pattern text : List α) (c : Cursor) (h : c.Sound) : ∃ n answer, run star pattern text n c = some answer := by
  cases hround : round star pattern text c with
  | inr answer => exact ⟨1,answer,by rw [run,hround]⟩
  | inl c' =>
    obtain ⟨n,answer,hn⟩ := run_ends star pattern text c' (sound_round h hround)
    exact ⟨n + 1,answer,by rw [run,hround]; exact hn⟩
termination_by rank pattern text c
decreasing_by exact rank_round h hround

theorem value_run {n : ℕ} (h : run star pattern text n c = some answer) : c.value star pattern text = answer := by
  induction n generalizing c with
  | zero => cases h
  | succ n ih =>
    rw [run] at h
    cases hround : round star pattern text c with
    | inl c' =>
      rw [hround] at h
      rw [← value_round hround]
      exact ih h
    | inr a =>
      rw [hround] at h
      rw [value_answer hround]
      exact Option.some.inj h

end Cursor

/-- The loop comes to an answer from the start, and any number of rounds that gives one gives that of the matcher. -/
theorem run_start (star : α) (pattern text : List α) :
    (∃ n answer, Cursor.run star pattern text n .start = some answer) ∧
    ∀ n answer, Cursor.run star pattern text n .start = some answer → answer = wildcard star pattern text :=
  ⟨Cursor.run_ends star pattern text .start Cursor.sound_start,fun _ _ h => (Cursor.value_run h).symm⟩

end Positions

/-! ## Fields

Split at a character other than the star, a text has at least as many fields as a pattern that it matches.
-/

section Fields

variable {α : Type} {sep : α} {l l' : List (List α)}

/-- None but an empty field stands where the pattern has an empty one. -/
def Fills (l l' : List (List α)) : Prop := List.Forall₂ (fun a b => a = [] → b = []) l l'

theorem Fills.start {a : α} (h : Fills l l') : Fills (l.modifyHead (List.cons a)) l' := by
  cases h with
  | nil => exact .nil
  | cons hhead hrest =>
    apply List.Forall₂.cons _ hrest
    intro hne
    cases hne

theorem Fills.more {a : α} (f : List α → List α) (h : Fills (l.modifyHead (List.cons a)) l') :
    Fills (l.modifyHead (List.cons a)) (l'.modifyHead f) := by
  cases l with
  | nil =>
    cases h
    exact .nil
  | cons first rest =>
    cases h with
    | cons hhead hrest =>
      apply List.Forall₂.cons _ hrest
      intro hne
      cases hne

theorem Fills.length_le [DecidableEq α] (h : Fills l l') : (l'.filter (· ≠ [])).length ≤ (l.filter (· ≠ [])).length := by
  induction h with
  | nil => exact Nat.le_refl _
  | cons hhead hrest ih =>
    rw [List.filter_cons,List.filter_cons]
    split_ifs <;> grind

/-- The two lists differ by more than where the empty fields stand, or not at all. -/
theorem Fills.eq [DecidableEq α] (h : Fills l l') (hfilter : l.filter (· ≠ []) = l'.filter (· ≠ [])) : l = l' := by
  induction h with
  | nil => rfl
  | @cons a b l l' hhead hrest ih =>
    have hle := Fills.length_le hrest
    rw [List.filter_cons,List.filter_cons] at hfilter
    split_ifs at hfilter <;> grind

variable [DecidableEq α] {star : α} {pattern text : List α}

theorem count_le_of_matches (hsep : sep ≠ star) (h : Matches star pattern text) : pattern.count sep ≤ text.count sep := by
  induction h with
  | nil => exact Nat.le_refl _
  | empty h ih => simpa [Ne.symm hsep] using ih
  | more c h ih =>
    rw [List.count_cons (b := c)]
    exact Nat.le_add_right_of_le ih
  | same hc h ih =>
    rw [List.count_cons,List.count_cons]
    exact Nat.add_le_add_right ih _

theorem fills_of_matches (hsep : sep ≠ star) (h : Matches star pattern text) (hcount : pattern.count sep = text.count sep) :
    Fills (pattern.splitOn sep) (text.splitOn sep) := by
  induction h with
  | nil => exact .cons (fun _ => rfl) .nil
  | empty h ih =>
    rw [List.count_cons_of_ne (Ne.symm hsep)] at hcount
    rw [List.splitOn_cons_eq_if_modifyHead,if_neg (by simpa using Ne.symm hsep)]
    exact (ih hcount).start
  | more c h ih =>
    -- A star that takes a separator leaves the text with more of them than the pattern has.
    have hle := count_le_of_matches hsep h
    by_cases hc : c = sep
    · rw [hc,List.count_cons_self] at hcount
      omega
    · rw [List.count_cons_of_ne hc] at hcount
      have hfills := ih hcount
      rw [List.splitOn_cons_eq_if_modifyHead,if_neg (by simpa using Ne.symm hsep)] at hfills ⊢
      rw [List.splitOn_cons_eq_if_modifyHead,if_neg (by simpa using hc)]
      exact hfills.more (List.cons c)
  | @same pattern text c hc h ih =>
    rw [List.splitOn_cons_eq_if_modifyHead,List.splitOn_cons_eq_if_modifyHead]
    rw [List.count_cons,List.count_cons] at hcount
    have hfills := ih (Nat.add_right_cancel hcount)
    split_ifs
    · exact .cons id hfills
    · exact hfills.start.more (List.cons c)

end Fields

end Rainier.Glob
