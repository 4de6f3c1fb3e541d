import Mathlib.Data.List.Basic

/-! # Regular expressions of a simple kind

The part of the ECMAScript syntax that has only literals, classes and `+` between the two
anchors. An expression is searched for in a text, so without anchors it may stand anywhere.
-/
namespace Rainier
namespace Pattern

inductive Atom where
  | literal (c : Char)
  | oneOf (ranges : List (Char × Char))
  deriving DecidableEq, Repr

def Atom.accepts : Atom → Char → Bool
  | literal c, d => d = c
  | oneOf ranges, d => ranges.any fun r => r.1 ≤ d && d ≤ r.2

structure Item where
  atom : Atom
  plus : Bool
  deriving DecidableEq, Repr

end Pattern

structure Pattern where
  start : Bool
  items : List Pattern.Item
  stop : Bool
  deriving DecidableEq, Repr

namespace Pattern

/-- The characters that mean something unless escaped. -/
def special (c : Char) : Bool :=
  ['.','^','$','*','+','?','(',')','[',']','\x7b','\x7d','|','\\'].contains c

def parseClass : List Char → List (Char × Char)
  | a :: '-' :: b :: rest => (a,b) :: parseClass rest
  | a :: rest => (a,a) :: parseClass rest
  | [] => []

def parseAtom : List Char → Option (Atom × List Char)
  | '\\' :: c :: rest => some (.literal c,rest)
  | '[' :: rest =>
    match rest.dropWhile (· ≠ ']') with
    | _ :: after => some (.oneOf (parseClass (rest.takeWhile (· ≠ ']'))),after)
    | [] => none
  | c :: rest => if special c then none else some (.literal c,rest)
  | [] => none

/-- The items, and whether the end is anchored. -/
def parseItems : ℕ → List Char → Option (List Item × Bool)
  | _, [] => some ([],false)
  | 0, _ :: _ => none
  | fuel + 1, c :: cs =>
    if c = '$' ∧ cs = [] then some ([],true)
    else (parseAtom (c :: cs)).bind fun (atom,rest) =>
      let plus := rest.head? = some '+'
      (parseItems fuel (if plus then rest.tail else rest)).map fun (items,stop) => (⟨atom,plus⟩ :: items,stop)

def parse (text : String) : Option Pattern :=
  let start := text.toList.head? = some '^'
  let cs := if start then text.toList.tail else text.toList
  (parseItems cs.length cs).map fun (items,stop) => ⟨start,items,stop⟩

/-- The items one after the other take up exactly these characters. -/
inductive Takes : List Item → List Char → Prop where
  | nil : Takes [] []
  | one {atom : Atom} {items : List Item} {c : Char} {cs : List Char} (hc : atom.accepts c = true) (h : Takes items cs) :
    Takes (⟨atom,false⟩ :: items) (c :: cs)
  | many {atom : Atom} {items : List Item} {first cs : List Char} (hne : first ≠ [])
    (hfirst : first.all atom.accepts = true) (h : Takes items cs) : Takes (⟨atom,true⟩ :: items) (first ++ cs)

/-- The expression is found in the text, at its anchors. -/
def Found (p : Pattern) (text : List Char) : Prop :=
  ∃ before found after, text = before ++ found ++ after ∧ Takes p.items found ∧
    (p.start = true → before = []) ∧ (p.stop = true → after = [])

/-- `text` matches the expression that is written as `pattern`. -/
def Matches (pattern text : String) : Prop := ∃ p, parse pattern = some p ∧ p.Found text.toList

/-! ## Literals -/

/-- A literal character as it is written in an expression. -/
def escapeChar (c : Char) : List Char := if special c then ['\\',c] else [c]

theorem parseAtom_escapeChar (c : Char) (rest : List Char) :
    parseAtom (escapeChar c ++ rest) = some (.literal c,rest) := by
  rw [escapeChar]
  split
  · rfl
  · next h =>
    have hback : c ≠ '\\' := by
      rintro rfl
      exact h rfl
    have hclass : c ≠ '[' := by
      rintro rfl
      exact h rfl
    rw [List.singleton_append,parseAtom.eq_def]
    split
    · next heq =>
      cases heq
      exact absurd rfl hback
    · next heq =>
      cases heq
      exact absurd rfl hclass
    · next heq =>
      cases heq
      rw [if_neg h]
    · next heq => cases heq

/-- A text written literally does not begin with a character that means something. -/
theorem head_escape (cs ending : List Char) (hending : ending = [] ∨ ending = ['$']) :
    (cs.flatMap escapeChar ++ ending).head? ≠ some '+' := by
  cases cs with
  | nil => rcases hending with rfl | rfl <;> simp
  | cons c cs =>
    rw [List.flatMap_cons,escapeChar]
    split
    · simp
    · next h =>
      rw [List.append_assoc,List.singleton_append,List.head?_cons]
      intro heq
      cases heq
      exact h rfl

theorem parseItems_escape (cs ending : List Char) (hending : ending = [] ∨ ending = ['$']) (fuel : ℕ)
    (hfuel : (cs.flatMap escapeChar ++ ending).length ≤ fuel) :
    parseItems fuel (cs.flatMap escapeChar ++ ending) =
      some (cs.map fun c => ⟨.literal c,false⟩,decide (ending = ['$'])) := by
  induction cs generalizing fuel with
  | nil =>
    rcases hending with rfl | rfl
    · cases fuel <;> rfl
    · cases fuel with
      | zero => simp at hfuel
      | succ fuel => rfl
  | cons c cs ih =>
    rw [List.flatMap_cons,List.append_assoc] at hfuel ⊢
    have hatom := parseAtom_escapeChar c (cs.flatMap escapeChar ++ ending)
    have hplus := head_escape cs ending hending
    -- an escape, or a character that is not special
    obtain ⟨d,ds,hds,hdollar,hlength⟩ : ∃ d ds, escapeChar c ++ (cs.flatMap escapeChar ++ ending) = d :: ds ∧
        d ≠ '$' ∧ (cs.flatMap escapeChar ++ ending).length ≤ ds.length := by
      rw [escapeChar]
      split
      · exact ⟨'\\',_,rfl,by decide,Nat.le_succ _⟩
      · next h =>
        refine ⟨c,_,rfl,?_,Nat.le_refl _⟩
        rintro rfl
        exact h rfl
    rw [hds] at hatom hfuel ⊢
    cases fuel with
    | zero => simp at hfuel
    | succ fuel =>
      rw [List.length_cons] at hfuel
      rw [parseItems,if_neg fun h => hdollar h.1,hatom]
      simp only [Option.bind_some,hplus,if_false,decide_false]
      rw [ih fuel (by omega)]
      rfl

theorem takes_literals {cs found : List Char} (h : Takes (cs.map fun c => ⟨.literal c,false⟩) found) : found = cs := by
  induction cs generalizing found with
  | nil =>
    cases h
    rfl
  | cons c cs ih =>
    cases h with
    | one hc h =>
      rw [Atom.accepts,decide_eq_true_eq] at hc
      rw [hc,ih h]

theorem takes_plus {atom : Atom} {found : List Char} (h : Takes [⟨atom,true⟩] found) :
    found ≠ [] ∧ found.all atom.accepts = true := by
  cases h with
  | many hne hfirst h =>
    cases h
    rw [List.append_nil]
    exact ⟨hne,hfirst⟩

/-- A literal after the start anchor. -/
theorem prefix_of_matches {literal text : String}
    (h : Matches (String.ofList ('^' :: literal.toList.flatMap escapeChar)) text) : literal.toList <+: text.toList := by
  obtain ⟨p,hp,before,found,after,htext,htakes,hstart,_⟩ := h
  have hitems := parseItems_escape literal.toList [] (.inl rfl) _ (Nat.le_refl _)
  rw [List.append_nil] at hitems
  have hparse : parse (String.ofList ('^' :: literal.toList.flatMap escapeChar)) =
      some ⟨true,literal.toList.map fun c => ⟨.literal c,false⟩,false⟩ := by
    simp only [parse,String.toList_ofList,List.head?_cons,if_true,List.tail_cons,hitems,Option.map_some,decide_true]
    rfl
  rw [hparse] at hp
  cases hp
  rw [hstart rfl,takes_literals htakes,List.nil_append] at htext
  exact ⟨after,htext.symm⟩

/-- A literal before the end anchor. -/
theorem suffix_of_matches {literal text : String}
    (h : Matches (String.ofList (literal.toList.flatMap escapeChar ++ ['$'])) text) : literal.toList <:+ text.toList := by
  obtain ⟨p,hp,before,found,after,htext,htakes,_,hstop⟩ := h
  have hitems := parseItems_escape literal.toList ['$'] (.inr rfl) _ (Nat.le_refl _)
  have hstart : (literal.toList.flatMap escapeChar ++ ['$']).head? ≠ some '^' := by
    cases hl : literal.toList with
    | nil => simp
    | cons c cs =>
      rw [List.flatMap_cons,escapeChar]
      split
      · simp
      · next hc =>
        rw [List.append_assoc,List.singleton_append,List.head?_cons]
        intro heq
        cases heq
        exact hc rfl
  have hparse : parse (String.ofList (literal.toList.flatMap escapeChar ++ ['$'])) =
      some ⟨false,literal.toList.map fun c => ⟨.literal c,false⟩,true⟩ := by
    simp only [parse,String.toList_ofList,hstart,if_false,decide_false,hitems,Option.map_some,decide_true]
  rw [hparse] at hp
  cases hp
  rw [hstop rfl,takes_literals htakes,List.append_nil] at htext
  exact ⟨before,htext.symm⟩

/-- A class with `+`, between both anchors. -/
theorem all_of_matches {pattern text : String} {ranges : List (Char × Char)}
    (hparse : parse pattern = some ⟨true,[⟨.oneOf ranges,true⟩],true⟩) (h : Matches pattern text) :
    text.toList ≠ [] ∧ text.toList.all (Atom.oneOf ranges).accepts = true := by
  obtain ⟨p,hp,before,found,after,htext,htakes,hstart,hstop⟩ := h
  rw [hparse] at hp
  cases hp
  rw [hstart rfl,hstop rfl,List.nil_append,List.append_nil] at htext
  rw [htext]
  exact takes_plus htakes

end Pattern
end Rainier
