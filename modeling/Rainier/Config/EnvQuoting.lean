import Mathlib.Data.List.DropRight
import Rainier.Config.EnvText

/-! # What quoted values mean

A line of an environment file that assigns a quoted value, with or without a comment behind it. The
value of the variable depends on more than the quotes: a comment keeps them from being recognised,
and references are replaced in single quotes as well.
-/
namespace Rainier.Config.Env

/-! ## The line -/

inductive Style where
  | single
  | double
  deriving DecidableEq, Repr

def Style.quote : Style → Char
  | .single => '\''
  | .double => '"'

/-- What stands between the quotes. -/
def Style.body : Style → List Char → List Char
  | .single, v => v
  | .double, v => escape v

/-- A key, the value to be assigned to it, how it is quoted and what comment is to follow. -/
structure Quoted where
  key : String
  style : Style
  value : List Char
  comment : Option (List Char)
  key_ne : key ≠ ""
  key_plain : '=' ∉ key.toList
  key_trim : Text.trim key = key
  value_line : '\n' ∉ value
  comment_line : ∀ c ∈ comment, '\n' ∉ c
  /-- Single quotes cannot hold one, and double quotes are read with references. -/
  writable : match style with
    | .single => '\'' ∉ value
    | .double => ¬ Adjacent '$' '{' value

namespace Quoted

variable (a : Quoted)

/-- What stands behind the key: the value in quotes, and the comment. -/
def raw : List Char := a.style.quote :: (a.style.body a.value ++ a.style.quote :: match a.comment with
  | some comment => ' ' :: '#' :: ' ' :: comment
  | none => [])

def line : String := a.key ++ "=" ++ String.ofList a.raw

/-- In every file with this line, and with no other for the key, the variable has the value. -/
def Means : Prop := ∀ (process : Vars) (before after : List String),
  (∀ l ∈ before ++ after, '\n' ∉ l.toList ∧ ∀ raw, assignment l ≠ some (a.key,raw)) →
    get process (parse process (Text.join '\n' (before ++ a.line :: after))) true a.key = some (String.ofList a.value)

end Quoted

/-! ## Reading the line -/

/-- A trimmed text begins with something, and ends with something. -/
theorem ends_of_trim {s : String} (h : Text.trim s = s) :
    (∀ c ∈ s.toList.head?, Text.isWhitespace c = false) ∧ ∀ c ∈ s.toList.getLast?, Text.isWhitespace c = false := by
  have hshort : ∀ cs : List Char, s.toList.length = cs.length + 1 → Text.trim s = Text.trim (String.ofList cs) → False := by
    intro cs hlength heq
    have hle := (Text.trim_sublist cs).length_le
    rw [← heq,h] at hle
    omega
  constructor
  · intro c hc
    by_contra hblank
    obtain ⟨cs,hcs⟩ := List.head?_eq_some_iff.1 hc
    refine hshort cs (by rw [hcs]; rfl) ?_
    rw [← String.ofList_toList (s := s),hcs,Text.trim_cons (by simpa using hblank)]
  · intro c hc
    by_contra hblank
    obtain ⟨cs,hcs⟩ := List.getLast?_eq_some_iff.1 hc
    refine hshort cs (by rw [hcs]; simp) ?_
    rw [← String.ofList_toList (s := s),hcs,Text.trim_concat (by simpa using hblank)]

namespace Quoted

variable (a : Quoted) {process : Vars}

theorem line_eq : a.line = String.ofList (a.key.toList ++ ['='] ++ a.raw) := by
  rw [line,String.ofList_append,String.ofList_append,String.ofList_toList]

theorem trim_line : Text.trim a.line = a.key ++ String.singleton '=' ++ String.ofList (trimEnd a.raw) := by
  have hhead : ∀ c ∈ (a.key.toList ++ ['='] ++ a.raw).head?, Text.isWhitespace c = false := by
    have hkey := (ends_of_trim a.key_trim).1
    cases hcs : a.key.toList with
    | nil => exact absurd (String.toList_eq_nil_iff.1 hcs) a.key_ne
    | cons c cs =>
      rw [hcs] at hkey
      simpa using hkey
  rw [line_eq,trim_ofList hhead,trimEnd_append List.getLast?_concat (by decide),← String.toList_inj]
  simp

theorem trimEnd_raw : trimEnd a.raw = a.style.quote :: trimEnd a.raw.tail := by
  have hquote : Text.isWhitespace a.style.quote = false := by
    cases a.style <;> decide
  exact @trimEnd_append [a.style.quote] _ rfl hquote a.raw.tail

theorem trim_raw : Text.trim (String.ofList (trimEnd a.raw)) = String.ofList (trimEnd a.raw) := by
  have hquote : Text.isWhitespace a.style.quote = false := by
    cases a.style <;> decide
  rw [trim_ofList (by rw [trimEnd_raw]; simpa using hquote)]
  congr 1
  rw [trimEnd,trimEnd,List.reverse_reverse,List.dropWhile_idempotent]

theorem keyAndRaw_trim_line :
    keyAndRaw (a.key ++ String.singleton '=' ++ String.ofList (trimEnd a.raw)) = some (a.key,String.ofList (trimEnd a.raw)) := by
  rw [keyAndRaw,Text.splitOnce_append a.key_plain]
  simp only [a.key_trim,if_neg a.key_ne,trim_raw]

/-- The key begins like a command, or not, whatever stands behind it. -/
theorem export_initial {rest : List Char} :
    "export ".toList <+: a.key.toList ++ '=' :: rest ↔ "export ".toList <+: a.key.toList := by
  constructor
  · intro h
    obtain hle | hlt := Nat.lt_or_ge a.key.toList.length "export ".toList.length
    · have hkey : a.key.toList ++ ['='] <+: "export ".toList := by
        apply List.prefix_of_prefix_length_le (List.prefix_append _ rest) (by simpa using h)
        rw [List.length_append]
        exact hle
      exact absurd (hkey.subset (List.mem_append_right _ List.mem_cons_self)) (by decide)
    · exact List.prefix_of_prefix_length_le h (List.prefix_append _ _) hlt
  · intro h
    exact h.trans (List.prefix_append _ _)

theorem assignment_line (hhash : a.key.toList.head? ≠ some '#') (hexport : ¬ "export ".toList <+: a.key.toList) :
    assignment a.line = some (a.key,String.ofList (trimEnd a.raw)) := by
  have hlist : (Text.trim a.line).toList = a.key.toList ++ '=' :: trimEnd a.raw := by
    rw [trim_line]
    simp
  have hread : ¬ (Text.trim a.line = "" ∨ (Text.trim a.line).toList.head? = some '#') := by
    rw [← String.toList_eq_nil_iff,hlist]
    rintro (hempty | hhead)
    · simp at hempty
    · rw [List.head?_append] at hhead
      cases hcs : a.key.toList.head? with
      | none => exact a.key_ne (String.toList_eq_nil_iff.1 (List.head?_eq_none_iff.1 hcs))
      | some c =>
        rw [hcs] at hhead
        exact hhash (hcs.trans hhead)
  have hplain : withoutExport (Text.trim a.line) = Text.trim a.line := by
    rw [withoutExport,Text.stripPrefix,if_neg (by rw [hlist,export_initial]; exact hexport)]
  rw [assignment,if_neg hread,hplain,trim_line,keyAndRaw_trim_line]

/-- A line whose key begins with a hash is a comment. -/
theorem assignment_hash (hhash : a.key.toList.head? = some '#') : assignment a.line = none := by
  rw [assignment,if_pos]
  right
  rw [trim_line,String.toList_append,String.toList_append,List.append_assoc,List.head?_append,hhash]
  rfl

/-- Where the key begins like a command, a shorter one is assigned. -/
theorem assignment_export (hexport : "export ".toList <+: a.key.toList) (raw : String) : assignment a.line ≠ some (a.key,raw) := by
  obtain ⟨key,hkey⟩ := hexport
  have hequals : '=' ∉ key.dropWhile Text.isWhitespace := by
    intro hmem
    apply a.key_plain
    rw [← hkey]
    exact List.mem_append_right _ ((List.dropWhile_sublist _).subset hmem)
  have hstart : withoutExport (Text.trim a.line) =
      String.ofList (key.dropWhile Text.isWhitespace) ++ String.singleton '=' ++ String.ofList (trimEnd a.raw) := by
    have hline : Text.trim a.line = "export " ++ String.ofList (key ++ '=' :: trimEnd a.raw) := by
      rw [trim_line,← String.toList_inj,String.toList_append,String.toList_append,← hkey]
      simp
    rw [withoutExport,Text.stripPrefix_eq_some.2 hline,← String.toList_inj]
    simp only [trimStart,String.toList_ofList,String.toList_append,List.dropWhile_append]
    split
    · next hempty =>
      rw [List.isEmpty_iff.1 hempty,List.dropWhile_cons_of_neg (by decide)]
      rfl
    · simp
  intro h
  rw [assignment] at h
  split at h
  · cases h
  · rw [hstart,keyAndRaw,Text.splitOnce_append (by simpa using hequals)] at h
    dsimp only at h
    split at h
    · cases h
    · have hshort := (Text.trim_sublist (key.dropWhile Text.isWhitespace)).length_le
      have hdrop := (List.dropWhile_sublist Text.isWhitespace (l := key)).length_le
      have hlength := congrArg List.length hkey
      have hfst : Text.trim (String.ofList (key.dropWhile Text.isWhitespace)) = a.key := congrArg Prod.fst (Option.some.inj h)
      rw [hfst] at hshort
      simp at hlength
      omega

theorem line_break_free (hkey : '\n' ∉ a.key.toList) : '\n' ∉ a.line.toList := by
  have hbody : '\n' ∉ a.style.body a.value := by
    cases a.style with
    | single => exact a.value_line
    | double =>
      intro hmem
      obtain ⟨c,hc,hesc⟩ := List.mem_flatMap.1 hmem
      rw [escapeChar] at hesc
      split_ifs at hesc
      · simp at hesc
        exact a.value_line (hesc ▸ hc)
      · simp at hesc
        exact a.value_line (hesc ▸ hc)
  have hquote : '\n' ≠ a.style.quote := by
    cases a.style <;> decide
  have hcomment := a.comment_line
  rw [line_eq,raw]
  cases hc : a.comment with
  | none => simp [hkey,hbody,hquote]
  | some comment =>
    have hline : '\n' ∉ comment := hcomment comment hc
    simp [hkey,hbody,hquote,hline]

/-! ## The value -/

theorem get_parse {before after : List String} (hkey : '\n' ∉ a.key.toList)
    (hassign : assignment a.line = some (a.key,String.ofList (trimEnd a.raw)))
    (hlines : ∀ l ∈ before ++ after, '\n' ∉ l.toList ∧ ∀ raw, assignment l ≠ some (a.key,raw)) :
    get process (parse process (Text.join '\n' (before ++ a.line :: after))) true a.key =
      some (interpolate process (before.foldl (parseLine process) fun _ => none) (unquote (trimEnd a.raw))) := by
  have hbreak : ∀ l ∈ before ++ a.line :: after, '\n' ∉ l.toList := by
    intro l hl
    obtain hl | rfl | hl : l ∈ before ∨ l = a.line ∨ l ∈ after := by simpa using hl
    · exact (hlines l (List.mem_append_left _ hl)).1
    · exact a.line_break_free hkey
    · exact (hlines l (List.mem_append_right _ hl)).1
  rw [get,if_pos rfl,parse_join (by simp) hbreak,List.foldl_append,List.foldl_cons,
    foldl_of_unassigned fun l hl => (hlines l (List.mem_append_right _ hl)).2,parseLine,hassign]
  dsimp only
  rw [Function.update_self,String.toList_ofList]

theorem get_parse_of_unassigned (hkey : '\n' ∉ a.key.toList) (h : ∀ raw, assignment a.line ≠ some (a.key,raw)) :
    get process (parse process (Text.join '\n' [a.line])) true a.key = none := by
  have hbreak := a.line_break_free hkey
  rw [get,if_pos rfl,parse_join (List.cons_ne_nil _ _) (by simpa using hbreak),foldl_of_unassigned (by simpa using h)]

/-- Between the lines there are no line breaks, so no key with one is assigned. -/
theorem get_parse_of_break (hkey : '\n' ∈ a.key.toList) :
    get process (parse process (Text.join '\n' [a.line])) true a.key = none := by
  rw [get,if_pos rfl,parse,Text.join_singleton,foldl_of_unassigned]
  intro l hl raw hassign
  have hmem := subset_of_assignment hassign hkey
  obtain ⟨piece,hpiece,rfl⟩ := List.mem_map.1 hl
  have hpiece : piece ∈ Text.split '\n' a.line := by
    split at hpiece
    · exact List.dropLast_subset _ hpiece
    · exact hpiece
  apply Text.not_mem_of_mem_split hpiece
  split at hmem
  · rw [String.toList_ofList] at hmem
    exact List.dropLast_subset _ hmem
  · exact hmem

/-- Quotes without a comment behind them are taken off. -/
theorem unquote_plain (hcomment : a.comment = none) : unquote (trimEnd a.raw) = a.value := by
  have hraw : a.raw = a.style.quote :: (a.style.body a.value ++ [a.style.quote]) := by rw [raw,hcomment]
  have hlast : a.raw.getLast? = some a.style.quote := by
    rw [hraw,← List.cons_append]
    exact List.getLast?_concat
  have hlength : 2 ≤ a.raw.length := by
    rw [hraw]
    simp
  have hinside : a.raw.tail.dropLast = a.style.body a.value := by
    rw [hraw,List.tail_cons,List.dropLast_concat]
  have hhead : a.raw.head? = some a.style.quote := by rw [hraw,List.head?_cons]
  have hblank : Text.isWhitespace a.style.quote = false := by
    cases a.style <;> decide
  rw [trimEnd_eq_self hlast hblank,unquote,hinside]
  cases hstyle : a.style with
  | single =>
    rw [hstyle] at hhead hlast
    rw [if_pos ⟨hlength,hhead,hlast⟩,Style.body]
  | double =>
    rw [hstyle] at hhead hlast
    have hsingle : ¬ Enclosed '\'' a.raw := by
      rintro ⟨-,hother,-⟩
      exact absurd (Option.some.inj (hhead.symm.trans hother)) (by decide)
    have hread := unescape_escape a.value []
    rw [List.append_nil] at hread
    rw [if_neg hsingle,if_pos ⟨hlength,hhead,hlast⟩,Style.body,hread]
    exact List.append_nil _

/-- Whatever is trimmed off a comment, the hash stays. -/
theorem exists_commented {comment : List Char} (hcomment : a.comment = some comment) :
    ∃ rest, trimEnd a.raw = a.style.quote :: (a.style.body a.value ++ a.style.quote :: ' ' :: '#' :: rest) := by
  refine ⟨trimEnd (' ' :: comment),?_⟩
  have hraw : a.raw = (a.style.quote :: (a.style.body a.value ++ [a.style.quote,' ']) ++ ['#']) ++ (' ' :: comment) := by
    rw [raw,hcomment]
    simp
  rw [hraw,trimEnd_append List.getLast?_concat (by decide)]
  simp

/-- With a comment the quotes belong to the value. -/
theorem quote_mem_unquote (v rest : List Char) : '\'' ∈ unquote ('\'' :: (v ++ '\'' :: ' ' :: '#' :: rest)) := by
  have hstart : ∀ cs, '\'' ∈ trimEnd ('\'' :: cs) := by
    intro cs
    have h := @trimEnd_append ['\''] _ rfl (by decide) cs
    rw [List.singleton_append] at h
    rw [h]
    exact List.mem_cons_self
  rw [unquote]
  split_ifs with hsingle hdouble
  · rw [List.tail_cons,List.dropLast_append_of_ne_nil (List.cons_ne_nil _ _),List.dropLast_cons_cons]
    simp
  · exact absurd (Option.some.inj hdouble.2.1) (by decide)
  · split
    · next before after hsplit =>
      cases before with
      | nil => exact absurd (List.cons.inj (splitAtText_eq hsplit)).1 (by decide)
      | cons c before =>
        rw [← (List.cons.inj (splitAtText_eq hsplit)).1]
        exact hstart before
    · exact hstart _

/-- Where the line is taken for an unquoted one, the value is the text in its quotes, or ends before a
hash that is to be part of it. -/
theorem expand_trimEnd_ne {r : String → String} {v before after rest : List Char} (hplain : ¬ Adjacent '$' '{' v)
    (hsplit : splitAtText [' ','#'] ('"' :: (escape v ++ '"' :: ' ' :: '#' :: rest)) = some (before,after)) :
    expand r (trimEnd before) ≠ v := by
  let quoted := '"' :: (escape v ++ ['"'])
  have hadjacent : ∀ {x y : Char}, x ≠ '\\' ∧ x ≠ '"' → y ≠ '\\' ∧ y ≠ '"' → Adjacent x y quoted → Adjacent x y v := by
    intro x y hx hy h
    obtain ⟨hquote,-⟩ | h := adjacent_cons.1 h
    · exact absurd hquote.symm hx.2
    · exact adjacent_of_escape hx hy h
  have htext : '"' :: (escape v ++ '"' :: ' ' :: '#' :: rest) = quoted ++ ([' ','#'] ++ rest) := by simp [quoted]
  have hquoted : quoted.getLast? = some '"' := List.getLast?_concat (l := '"' :: escape v)
  have hbefore := splitAtText_eq hsplit
  have hle := splitAtText_first hsplit htext
  have hinitial : before <+: quoted := by
    apply List.prefix_of_prefix_length_le ⟨_,hbefore.symm⟩ _ hle
    rw [htext]
    exact List.prefix_append _ _
  have hclosed : ¬ Adjacent '$' '{' (trimEnd before) := by
    intro h
    exact hplain (hadjacent (by decide) (by decide) (h.trans (((trimEnd_initial before).trans hinitial).isInfix)))
  have hexpand : expand r (trimEnd before ++ []) = trimEnd before ++ expand r [] := expand_append hclosed (by decide)
  rw [List.append_nil,expand,List.append_nil] at hexpand
  rw [hexpand]
  rintro heq
  have hhash : ¬ Adjacent ' ' '#' v := by
    rintro hinfix
    rw [← heq] at hinfix
    obtain ⟨front,back,hfront⟩ := hinfix.trans (trimEnd_initial before).isInfix
    have hearlier : '"' :: (escape v ++ '"' :: ' ' :: '#' :: rest) = front ++ ([' ','#'] ++ (back ++ ([' ','#'] ++ after))) := by
      rw [hbefore,← hfront]
      simp
    have hshort := splitAtText_first hsplit hearlier
    rw [← hfront,List.length_append,List.length_append,List.length_cons] at hshort
    omega
  obtain ⟨tail,htail⟩ := hinitial
  rw [htext,← htail,List.append_assoc] at hbefore
  have hrest := List.append_cancel_left hbefore
  cases tail with
  | nil =>
    -- the whole of the quoted text
    rw [List.append_nil] at htail
    rw [htail,trimEnd_eq_self hquoted (by decide)] at heq
    have hlength : quoted.length = v.length := congrArg List.length heq
    have hescape := length_le_escape v
    rw [List.length_cons,List.length_append] at hlength
    omega
  | cons c tail =>
    have hc : c = ' ' := (List.cons.inj hrest).1
    cases tail with
    | nil =>
      have hlast : quoted.getLast? = some c := by
        rw [← htail]
        exact List.getLast?_concat
      rw [hc,hquoted] at hlast
      exact absurd (Option.some.inj hlast) (by decide)
    | cons d tail =>
      have hd : d = '#' := (List.cons.inj (List.cons.inj hrest).2).1
      exact hhash (hadjacent (by decide) (by decide) ⟨before,tail,by rw [← htail,hc,hd]; simp⟩)

/-- In double quotes as well. -/
theorem expand_unquote_ne {r : String → String} {v : List Char} (hplain : ¬ Adjacent '$' '{' v) (rest : List Char) :
    expand r (unquote ('"' :: (escape v ++ '"' :: ' ' :: '#' :: rest))) ≠ v := by
  have hsingle : ¬ Enclosed '\'' ('"' :: (escape v ++ '"' :: ' ' :: '#' :: rest)) := by
    rintro ⟨-,hhead,-⟩
    exact absurd (Option.some.inj hhead) (by decide)
  rw [unquote,if_neg hsingle]
  split_ifs
  · -- the closing quote is in the middle
    rw [List.tail_cons,List.dropLast_append_of_ne_nil (List.cons_ne_nil _ _),List.dropLast_cons_cons,unescape_escape,
      unescape_cons (by decide),expand_append hplain (by simp),expand_cons (by simp)]
    intro heq
    have hlength := congrArg List.length heq
    rw [List.length_append,List.length_cons] at hlength
    omega
  · cases hsplit : splitAtText [' ','#'] ('"' :: (escape v ++ '"' :: ' ' :: '#' :: rest)) with
    | none =>
      have hinfix : [' ','#'] <:+: '"' :: (escape v ++ '"' :: ' ' :: '#' :: rest) := ⟨'"' :: (escape v ++ ['"']),rest,by simp⟩
      obtain ⟨before,after,hsome⟩ := exists_splitAtText hinfix
      rw [hsplit] at hsome
      cases hsome
    | some parts => exact expand_trimEnd_ne hplain hsplit

/-- With a comment behind it no value is assigned as it is. -/
theorem value_ne_of_comment {comment : List Char} (hcomment : a.comment = some comment) :
    expand (fun _ => "'") (unquote (trimEnd a.raw)) ≠ a.value := by
  obtain ⟨rest,hraw⟩ := exists_commented a hcomment
  have hwritable := a.writable
  rw [hraw]
  cases hstyle : a.style with
  | single =>
    rw [hstyle] at hwritable
    have hmem := quote_mem_expand (.inl (quote_mem_unquote a.value rest))
    intro heq
    apply hwritable
    rw [← heq]
    exact hmem
  | double =>
    rw [hstyle] at hwritable
    exact expand_unquote_ne hwritable rest

/-- Where the line assigns its key, the value is what is left of what stands behind it. -/
theorem value_of_means (hkey : '\n' ∉ a.key.toList) (hhash : a.key.toList.head? ≠ some '#')
    (hexport : ¬ "export ".toList <+: a.key.toList) (h : a.Means) : expand (fun _ => "'") (unquote (trimEnd a.raw)) = a.value := by
  have hone := h (fun _ => some "'") [] [] (by simp)
  rw [get_parse a hkey (assignment_line a hhash hexport) (by simp)] at hone
  exact String.ofList_inj.1 (Option.some.inj hone)

theorem means_iff : a.Means ↔ a.comment = none ∧ '\n' ∉ a.key.toList ∧ a.key.toList.head? ≠ some '#' ∧
    ¬ "export ".toList <+: a.key.toList ∧ (a.style = .single → ¬ Closed a.value) := by
  constructor
  · intro h
    have hone := h (fun _ => some "'") [] [] (by simp)
    rw [List.nil_append] at hone
    have hkey : '\n' ∉ a.key.toList := by
      intro hkey
      rw [get_parse_of_break a hkey] at hone
      cases hone
    have hassigned : ¬ ∀ raw, assignment a.line ≠ some (a.key,raw) := by
      intro hnone
      rw [get_parse_of_unassigned a hkey hnone] at hone
      cases hone
    have hhash : a.key.toList.head? ≠ some '#' := by
      intro hhash
      apply hassigned
      intro raw hsome
      rw [assignment_hash a hhash] at hsome
      cases hsome
    have hexport : ¬ "export ".toList <+: a.key.toList := fun hexport => hassigned (assignment_export a hexport)
    have hvalue := value_of_means a hkey hhash hexport h
    have hcomment : a.comment = none := by
      cases hcomment : a.comment with
      | none => rfl
      | some comment => exact absurd hvalue (value_ne_of_comment a hcomment)
    refine ⟨hcomment,hkey,hhash,hexport,fun hstyle hclosed => ?_⟩
    rw [unquote_plain a hcomment] at hvalue
    have hwritable := a.writable
    rw [hstyle] at hwritable
    apply hwritable
    rw [← hvalue]
    exact quote_mem_expand (.inr hclosed)
  · rintro ⟨hcomment,hkey,hhash,hexport,hclosed⟩ process before after hlines
    have hplain : ¬ Closed a.value := by
      have hwritable := a.writable
      cases hstyle : a.style with
      | single => exact hclosed hstyle
      | double =>
        rw [hstyle] at hwritable
        rintro ⟨front,name,back,heq⟩
        exact hwritable ⟨front,name ++ '}' :: back,by rw [heq]; simp⟩
    rw [get_parse a hkey (assignment_line a hhash hexport) hlines,unquote_plain a hcomment,interpolate,
      expand_of_not_closed hplain]

/-- `KEY='a' # note` -/
def commented : Quoted where
  key := "KEY"
  style := .single
  value := ['a']
  comment := some "note".toList
  key_ne := by decide
  key_plain := by decide
  key_trim := by decide
  value_line := by decide
  comment_line := by decide
  writable := by decide

/-- The comment and the quotes are part of what is assigned. -/
theorem commented_not_means : ¬ commented.Means := by
  intro h
  exact value_ne_of_comment commented rfl (value_of_means commented (by decide) (by decide) (by decide) h)

end Quoted

end Rainier.Config.Env
