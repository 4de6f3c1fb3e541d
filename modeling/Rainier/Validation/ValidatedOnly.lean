import Mathlib.Data.Set.Finite.Lattice
import Rainier.Validation.Wildcards

/-! # What passes a validator

`validated_only` keeps the top-level keys its patterns begin with. What it answers should
depend on the keys that are named by the patterns and by the rules, and on nothing else a
client may have put into the input.
-/
namespace Rainier.Validation
open Rainier
variable {D : Type}

/-- The text before the first dot or star of a pattern. -/
def root (pattern : String) : String := String.ofList (pattern.toList.takeWhile fun c => c ≠ '.' ∧ c ≠ '*')

/-- One turn of the loop over the patterns. -/
def keep (input : Json) (kept : List (String × Json)) (pattern : String) : List (String × Json) :=
  if root pattern = "" ∨ (Json.field kept (root pattern)).isSome then kept
  else
    match input.valueField (root pattern) with
    | some value => Json.insert kept (root pattern) value
    | none => kept

def Validator.validatedOnly (fm : Formats D) (v : Validator D) (input : Json) : Except ValidationErrors Json :=
  match v.validate fm input with
  | .error errors => .error errors
  | .ok () => .ok (.object ((v.rules.map Prod.fst).foldl (keep input) []))

/-- The first segment of a dotted path. -/
def first (path : String) : String := (Text.split '.' path).headD ""

/-- The top-level keys that patterns and rules name; a confirmed field names the key of its
confirmation. -/
inductive Names (v : Validator D) (input : Json) : String → Prop
  | pattern {entry} (hentry : entry ∈ v.rules) : Names v input (first entry.1)
  | same {entry} (hentry : entry ∈ v.rules) {other : String} (hrule : .same other ∈ entry.2) : Names v input (first other)
  | different {entry} (hentry : entry ∈ v.rules) {other : String} (hrule : .different other ∈ entry.2) :
    Names v input (first other)
  | confirmed {entry} (hentry : entry ∈ v.rules) (hrule : .confirmed ∈ entry.2) {field : String}
    (hfield : field ∈ expand entry.1 input) : Names v input (first (field ++ "_confirmation"))

/-- Inputs that agree on the named keys get the same answer, and what is kept stands under
the first segment of a pattern, as it stood in the input. -/
structure Sealed (fm : Formats D) (v : Validator D) : Prop where
  same : ∀ a b, (∀ key, Names v (.object a) key → Json.field a key = Json.field b key) →
    v.validatedOnly fm (.object a) = v.validatedOnly fm (.object b)
  only : ∀ a kept, v.validatedOnly fm (.object a) = .ok kept → ∃ fields, kept = .object fields ∧
    ∀ entry ∈ fields, entry.1 ∈ v.rules.map (fun rule => first rule.1) ∧ Json.field a entry.1 = some entry.2

/-- The segment at which the expansion of a pattern with a wildcard begins: what stands
before it is empty, and is lost. -/
def start (pattern : String) : Option String := (Text.split '.' pattern).find? (· ≠ "")

/-- A pattern with a star begins, after empty segments, with a name that some pattern has
for its first segment, and so does what stands before the star or is empty. -/
def Closed (patterns : List String) : Prop :=
  ∀ pattern ∈ patterns, '*' ∈ pattern.toList →
    (∃ name ∈ patterns.map first, start pattern = some name ∧ name ≠ "*") ∧
      (root pattern = "" ∨ root pattern ∈ patterns.map first)

/-! ## Segments -/

theorem headD_splitOn (cs : List Char) : (cs.splitOn '.').headD [] = cs.takeWhile (· ≠ '.') := by
  induction cs with
  | nil => rfl
  | cons c cs ih =>
    rw [List.splitOn_cons_eq_if_modifyHead]
    by_cases hc : c = '.'
    · simp [hc]
    · rw [if_neg (by simpa using hc),List.takeWhile_cons_of_pos (by simpa using hc),← ih]
      cases hsplit : cs.splitOn '.' with
      | nil => exact absurd hsplit (List.splitOn_ne_nil _ _)
      | cons l ls => rfl

theorem first_eq (path : String) : first path = String.ofList (path.toList.takeWhile (· ≠ '.')) := by
  rw [first,Text.split,← headD_splitOn]
  cases hsplit : path.toList.splitOn '.' with
  | nil => exact absurd hsplit (List.splitOn_ne_nil _ _)
  | cons l ls => rfl

/-- Without a star what is kept is what is read. -/
theorem root_eq_first {pattern : String} (h : '*' ∉ pattern.toList) : root pattern = first pattern := by
  rw [root,first_eq]
  congr 1
  generalize pattern.toList = cs at h
  induction cs with
  | nil => rfl
  | cons c cs ih =>
    rw [List.mem_cons,not_or] at h
    rw [List.takeWhile_cons,List.takeWhile_cons,ih h.2]
    simp [Ne.symm h.1]

theorem first_join {name : String} {rest : List String} (h : ∀ s ∈ name :: rest, '.' ∉ s.toList) :
    first (Text.join '.' (name :: rest)) = name := by
  rw [first,Text.split_join (List.cons_ne_nil name rest) h]
  rfl

/-- Only the key a path begins with is read of an object. -/
theorem lookup_object (fields : List (String × Json)) (path : String) :
    lookup (.object fields) path =
      (Json.field fields (first path)).bind fun value => value.walk (Text.split '.' path).tail := by
  rw [lookup,first]
  cases hsplit : Text.split '.' path with
  | nil => exact absurd hsplit (Text.split_ne_nil path)
  | cons segment rest => rfl

theorem lookup_congr {a b : List (String × Json)} {path : String} (h : Json.field a (first path) = Json.field b (first path)) :
    lookup (.object a) path = lookup (.object b) path := by
  rw [lookup_object,lookup_object,h]

/-! ## Expansion -/

section Expansion
variable {pattern name : String}

theorem foldl_grow_empty (input : Json) {segments : List String} (h : ∀ s ∈ segments, s = "") :
    segments.foldl (fun expanded segment => expanded.flatMap (grow input segment)) [""] = [""] := by
  induction segments with
  | nil => rfl
  | cons segment rest ih =>
    rw [h segment List.mem_cons_self,List.foldl_cons]
    exact ih fun s hs => h s (List.mem_cons_of_mem segment hs)

/-- Where a pattern begins: the expansion is that of the segments from there on. -/
theorem expand_of_start (hstar : '*' ∈ pattern.toList) (hstart : start pattern = some name) :
    name ≠ "" ∧ ∃ rest : List String, (∀ s ∈ name :: rest, '.' ∉ s.toList) ∧ ∀ input : Json, expand pattern input =
      (name :: rest).foldl (fun expanded segment => expanded.flatMap (grow input segment)) [""] := by
  obtain ⟨hne,before,rest,hsplit,hbefore⟩ := List.find?_eq_some_iff_append.mp hstart
  refine ⟨by simpa using hne,rest,fun s hs => ?_,fun input => ?_⟩
  · have hmem : s ∈ Text.split '.' pattern := hsplit ▸ List.mem_append_right before hs
    exact Text.not_mem_of_mem_split hmem
  · rw [expand,if_neg (not_not.mpr hstar),hsplit,List.foldl_append,foldl_grow_empty input]
    exact fun s hs => by simpa using hbefore s hs

theorem exists_start (hstar : '*' ∈ pattern.toList) : ∃ name, start pattern = some name := by
  rw [← Option.isSome_iff_exists,start,List.find?_isSome]
  by_contra hnone
  have hempty : ∀ s ∈ Text.split '.' pattern, s = "" := by
    intro s hs
    by_contra hne
    exact hnone ⟨s,hs,by simpa using hne⟩
  have hdot := Text.eq_sep_of_mem_join hempty (by rwa [Text.join_split])
  cases hdot

theorem grow_name (input : Json) (hname : name ≠ "*") : grow input name "" = [name] := by
  rw [grow,if_pos hname]
  rfl

/-- From a name on, the expansion is that of paths that begin with the name. -/
theorem foldl_grow_name (input : Json) {rest : List String} (hne : name ≠ "") (hwild : name ≠ "*")
    (hdots : ∀ s ∈ name :: rest, '.' ∉ s.toList) :
    (name :: rest).foldl (fun expanded segment => expanded.flatMap (grow input segment)) [""] =
      (instances input [name] rest).map (Text.join '.') := by
  have hname : ∀ s ∈ [name], '.' ∉ s.toList := by
    intro s hs
    rw [List.mem_singleton.mp hs]
    exact hdots name List.mem_cons_self
  rw [List.foldl_cons,List.flatMap_singleton,grow_name input hwild]
  have hjoin := foldl_grow_join input hne [] rest hname fun s hs => hdots s (List.mem_cons_of_mem name hs)
  rwa [Text.join_singleton] at hjoin

theorem instances_congr {a b : Json} {done : List String} (segments : List String)
    (h : ∀ path, a.walk (done ++ path) = b.walk (done ++ path)) : instances a done segments = instances b done segments := by
  induction segments generalizing done with
  | nil => rfl
  | cons segment segments ih =>
    have hnext (s : String) : instances a (done ++ [s]) segments = instances b (done ++ [s]) segments := by
      refine ih fun path => ?_
      rw [List.append_assoc]
      exact h ([s] ++ path)
    have hdone := h []
    rw [List.append_nil] at hdone
    rw [instances,instances,hnext,hdone]
    simp only [hnext]

/-- The paths a pattern stands for begin as what is done of them. -/
theorem prefix_of_mem_instances {input : Json} {done segments path : List String}
    (h : path ∈ instances input done segments) : done <+: path := by
  induction segments generalizing done with
  | nil =>
    rw [instances,List.mem_singleton] at h
    exact h ▸ List.prefix_rfl
  | cons segment segments ih =>
    rw [instances] at h
    split at h
    · exact (List.prefix_append done [segment]).trans (ih h)
    · obtain ⟨i,_,h⟩ := List.mem_flatMap.mp h
      exact (List.prefix_append done [Nat.repr i]).trans (ih h)

/-- Every field of a pattern that begins with a name begins with it too. -/
theorem first_of_mem_expand {input : Json} {field : String} (hstar : '*' ∈ pattern.toList)
    (hstart : start pattern = some name) (hwild : name ≠ "*") (h : field ∈ expand pattern input) : first field = name := by
  obtain ⟨hne,rest,hdots,hexpand⟩ := expand_of_start hstar hstart
  rw [hexpand,foldl_grow_name input hne hwild hdots] at h
  obtain ⟨path,hpath,rfl⟩ := List.mem_map.mp h
  have hname : ∀ s ∈ [name], '.' ∉ s.toList := by
    intro s hs
    rw [List.mem_singleton.mp hs]
    exact hdots name List.mem_cons_self
  have hdotted := dotted_of_mem_instances hname (fun s hs => hdots s (List.mem_cons_of_mem name hs)) (.inl (by simp)) hpath
  obtain ⟨tail,rfl⟩ := prefix_of_mem_instances hpath
  exact first_join hdotted.no_dot

theorem expand_congr {a b : List (String × Json)} (hstar : '*' ∈ pattern.toList) (hstart : start pattern = some name)
    (hwild : name ≠ "*") (h : Json.field a name = Json.field b name) :
    expand pattern (.object a) = expand pattern (.object b) := by
  obtain ⟨hne,rest,hdots,hexpand⟩ := expand_of_start hstar hstart
  rw [hexpand,hexpand,foldl_grow_name _ hne hwild hdots,foldl_grow_name _ hne hwild hdots]
  have hwalk (path : List String) : Json.walk (.object a) ([name] ++ path) = Json.walk (.object b) ([name] ++ path) := by
    rw [List.singleton_append,Json.walk_cons,Json.walk_cons,Json.child,Json.child,h]
  rw [instances_congr rest hwalk]

end Expansion

/-! ## What a validator reads -/

section Reads
variable {fm : Formats D} {v : Validator D} {a b : List (String × Json)}

/-- A rule reads the other fields it names, and nothing else besides its value. -/
theorem check_congr {a b : Json} {rule : Rule D} {field : String} (value : Option Json)
    (hconfirmed : rule = .confirmed → lookup a (field ++ "_confirmation") = lookup b (field ++ "_confirmation"))
    (hsame : ∀ other, rule = .same other → lookup a other = lookup b other)
    (hdifferent : ∀ other, rule = .different other → lookup a other = lookup b other) :
    rule.check fm field value a = rule.check fm field value b := by
  cases rule with
  | confirmed => simp only [Rule.check,Rule.checkValue,hconfirmed rfl]
  | same other => simp only [Rule.check,Rule.checkValue,hsame other rfl]
  | different other => simp only [Rule.check,Rule.checkValue,hdifferent other rfl]
  | _ => rfl

theorem checkField_congr {a b : Json} {pattern field : String} {value : Option Json} {rules : List (Rule D)}
    (h : ∀ rule ∈ rules, rule.check fm field value a = rule.check fm field value b) (errors : ValidationErrors) :
    v.checkField fm pattern field value a rules errors = v.checkField fm pattern field value b rules errors := by
  induction rules generalizing errors with
  | nil => rfl
  | cons rule rest ih =>
    rw [Validator.checkField,Validator.checkField,h rule List.mem_cons_self]
    simp only [ih fun other hother => h other (List.mem_cons_of_mem rule hother)]

theorem errorsOf_congr {a b : Json} (hexpand : ∀ entry ∈ v.rules, expand entry.1 a = expand entry.1 b)
    (hlookup : ∀ entry ∈ v.rules, ∀ field ∈ expand entry.1 a, lookup a field = lookup b field)
    (hcheck : ∀ entry ∈ v.rules, ∀ field ∈ expand entry.1 a, ∀ rule ∈ entry.2, ∀ value,
      rule.check fm field value a = rule.check fm field value b) : v.errorsOf fm a = v.errorsOf fm b := by
  rw [Validator.errorsOf,Validator.errorsOf]
  refine List.foldl_ext _ _ _ fun errors entry hentry => ?_
  rw [← hexpand entry hentry]
  refine List.foldl_ext _ _ _ fun errors field hfield => ?_
  rw [← hlookup entry hentry field hfield]
  exact checkField_congr (fun rule hrule => hcheck entry hentry field hfield rule hrule _) errors

/-- The firsts of the patterns, as `Closed` lists them. -/
theorem map_first_rules (v : Validator D) : (v.rules.map Prod.fst).map first = v.rules.map fun rule => first rule.1 := by
  rw [List.map_map]
  rfl

theorem names_of_mem_firsts {input : Json} {key : String} (h : key ∈ (v.rules.map Prod.fst).map first) : Names v input key := by
  rw [map_first_rules] at h
  obtain ⟨entry,hentry,rfl⟩ := List.mem_map.mp h
  exact .pattern hentry

/-- Of the input only named keys are read. -/
theorem errorsOf_agree (hclosed : Closed (v.rules.map Prod.fst))
    (h : ∀ key, Names v (.object a) key → Json.field a key = Json.field b key) :
    v.errorsOf fm (.object a) = v.errorsOf fm (.object b) := by
  have hpattern (entry : String × List (Rule D)) (hentry : entry ∈ v.rules) :
      expand entry.1 (.object a) = expand entry.1 (.object b) ∧
        ∀ field ∈ expand entry.1 (.object a), lookup (.object a) field = lookup (.object b) field := by
    by_cases hstar : '*' ∈ entry.1.toList
    · obtain ⟨⟨name,hname,hstart,hwild⟩,_⟩ := hclosed entry.1 (List.mem_map_of_mem hentry) hstar
      have hagree := h name (names_of_mem_firsts hname)
      refine ⟨expand_congr hstar hstart hwild hagree,fun field hfield => lookup_congr ?_⟩
      rw [first_of_mem_expand hstar hstart hwild hfield]
      exact hagree
    · have hplain (input : Json) : expand entry.1 input = [entry.1] := by rw [expand,if_pos hstar]
      rw [hplain,hplain]
      refine ⟨rfl,fun field hfield => lookup_congr ?_⟩
      rw [List.mem_singleton.mp hfield]
      exact h _ (.pattern hentry)
  refine errorsOf_congr (fun entry hentry => (hpattern entry hentry).1) (fun entry hentry => (hpattern entry hentry).2) ?_
  intro entry hentry field hfield rule hrule value
  refine check_congr value ?_ ?_ ?_
  · rintro rfl
    exact lookup_congr (h _ (.confirmed hentry hrule hfield))
  · rintro other rfl
    exact lookup_congr (h _ (.same hentry hrule))
  · rintro other rfl
    exact lookup_congr (h _ (.different hentry hrule))

end Reads

/-! ## What is kept -/

section Kept
variable {a b : List (String × Json)}

theorem mem_insert {fields : List (String × Json)} {key : String} {value : Json} {entry : String × Json}
    (h : entry ∈ Json.insert fields key value) : entry = (key,value) ∨ entry ∈ fields := by
  induction fields with
  | nil => exact .inl (List.mem_singleton.mp h)
  | cons other rest ih =>
    rw [Json.insert] at h
    split at h
    · next heq =>
      rcases List.mem_cons.mp h with rfl | h
      · exact .inl (by rw [heq])
      · exact .inr (List.mem_cons_of_mem other h)
    · split at h
      · exact (List.mem_cons.mp h)
      · rcases List.mem_cons.mp h with rfl | h
        · exact .inr List.mem_cons_self
        · exact (ih h).imp_right (List.mem_cons_of_mem other)

/-- What a turn adds is found in the input under the root of its pattern. -/
theorem mem_keep {kept : List (String × Json)} {pattern : String} {entry : String × Json}
    (h : entry ∈ keep (.object a) kept pattern) :
    entry ∈ kept ∨ (entry.1 = root pattern ∧ root pattern ≠ "" ∧ Json.field a entry.1 = some entry.2) := by
  rw [keep] at h
  split at h
  · exact .inl h
  · next hnew =>
    rw [not_or] at hnew
    split at h
    · next value hvalue =>
      rcases mem_insert h with rfl | h
      · exact .inr ⟨rfl,hnew.1,hvalue⟩
      · exact .inl h
    · exact .inl h

theorem mem_foldl_keep {patterns : List String} {kept : List (String × Json)} {entry : String × Json}
    (h : entry ∈ patterns.foldl (keep (.object a)) kept) :
    entry ∈ kept ∨ ((∃ pattern ∈ patterns, entry.1 = root pattern ∧ root pattern ≠ "") ∧ Json.field a entry.1 = some entry.2) := by
  induction patterns generalizing kept with
  | nil => exact .inl h
  | cons pattern patterns ih =>
    rcases ih h with hkept | ⟨⟨other,hother,hroot⟩,hvalue⟩
    · rcases mem_keep hkept with hkept | ⟨hroot,hne,hvalue⟩
      · exact .inl hkept
      · exact .inr ⟨⟨pattern,List.mem_cons_self,hroot,hne⟩,hvalue⟩
    · exact .inr ⟨⟨other,List.mem_cons_of_mem pattern hother,hroot⟩,hvalue⟩

theorem foldl_keep_congr {patterns : List String}
    (h : ∀ pattern ∈ patterns, root pattern ≠ "" → Json.field a (root pattern) = Json.field b (root pattern)) :
    patterns.foldl (keep (.object a)) [] = patterns.foldl (keep (.object b)) [] := by
  refine List.foldl_ext _ _ _ fun kept pattern hpattern => ?_
  rw [keep,keep]
  by_cases hempty : root pattern = ""
  · rw [if_pos (.inl hempty),if_pos (.inl hempty)]
  · simp only [Json.valueField,h pattern hpattern hempty]

/-- What a pattern keeps is kept to the end. -/
theorem field_foldl_keep {patterns : List String} {kept : List (String × Json)} {key : String}
    (h : (Json.field kept key).isSome) : (Json.field (patterns.foldl (keep (.object a)) kept) key).isSome := by
  induction patterns generalizing kept with
  | nil => exact h
  | cons pattern patterns ih =>
    refine ih ?_
    rw [keep]
    split
    · exact h
    · split
      · rw [Json.field_insert]
        split
        · rfl
        · exact h
      · exact h

theorem field_kept {patterns : List String} {kept : List (String × Json)} {pattern : String} (hpattern : pattern ∈ patterns)
    (hroot : root pattern ≠ "") (hvalue : (Json.field a (root pattern)).isSome) :
    (Json.field (patterns.foldl (keep (.object a)) kept) (root pattern)).isSome := by
  obtain ⟨before,after,rfl⟩ := List.append_of_mem hpattern
  rw [List.foldl_append,List.foldl_cons]
  refine field_foldl_keep ?_
  obtain ⟨value,hvalue⟩ := Option.isSome_iff_exists.mp hvalue
  rw [keep]
  split
  · next hold =>
    exact hold.resolve_left hroot
  · simp [Json.valueField,hvalue,Json.field_insert]

/-- A root that is not empty is the first segment of a pattern. -/
theorem root_mem_firsts {patterns : List String} (hclosed : Closed patterns) {pattern : String} (hpattern : pattern ∈ patterns)
    (hroot : root pattern ≠ "") : root pattern ∈ patterns.map first := by
  by_cases hstar : '*' ∈ pattern.toList
  · exact (hclosed pattern hpattern hstar).2.resolve_left hroot
  · rw [root_eq_first hstar]
    exact List.mem_map_of_mem hpattern

end Kept

theorem sealed_of_closed {fm : Formats D} {v : Validator D} (hclosed : Closed (v.rules.map Prod.fst)) : Sealed fm v where
  same a b h := by
    have herrors : v.errorsOf fm (.object a) = v.errorsOf fm (.object b) := errorsOf_agree hclosed h
    have hkept : (v.rules.map Prod.fst).foldl (keep (.object a)) [] = (v.rules.map Prod.fst).foldl (keep (.object b)) [] :=
      foldl_keep_congr fun pattern hpattern hroot => h _ (names_of_mem_firsts (root_mem_firsts hclosed hpattern hroot))
    simp only [Validator.validatedOnly,Validator.validate,herrors,hkept]
  only a kept h := by
    rw [Validator.validatedOnly] at h
    split at h
    · cases h
    · cases h
      refine ⟨_,rfl,fun entry hentry => ?_⟩
      rcases mem_foldl_keep hentry with hnil | ⟨⟨pattern,hpattern,hroot,hne⟩,hvalue⟩
      · cases hnil
      · rw [← map_first_rules,hroot]
        rw [hroot] at hvalue
        exact ⟨root_mem_firsts hclosed hpattern hne,hvalue⟩

/-! ## Patterns that let something through -/

section Leaks
variable {fm : Formats D} {patterns : List String} {pattern : String}

/-- The patterns, with a rule for one of them alone. -/
def demanding (patterns : List String) (pattern : String) : Validator D :=
  ⟨patterns.map fun q => (q,if q = pattern then [.notNull] else []),[]⟩

@[simp] theorem demanding_patterns : (demanding (D := D) patterns pattern).rules.map Prod.fst = patterns := by
  simp [demanding,Function.comp_def]

theorem rules_demanding {entry : String × List (Rule D)} (h : entry ∈ (demanding patterns pattern).rules) :
    entry.1 ∈ patterns ∧ ∀ rule ∈ entry.2, rule = .notNull := by
  obtain ⟨q,hq,rfl⟩ := List.mem_map.mp h
  refine ⟨hq,fun rule hrule => ?_⟩
  by_cases heq : q = pattern <;> simp_all

theorem names_demanding {input : Json} {key : String} (h : Names (D := D) (demanding patterns pattern) input key) :
    key ∈ patterns.map first := by
  cases h with
  | pattern hentry => exact List.mem_map_of_mem (rules_demanding hentry).1
  | same hentry hrule => cases (rules_demanding hentry).2 _ hrule
  | different hentry hrule => cases (rules_demanding hentry).2 _ hrule
  | confirmed hentry hrule _ => cases (rules_demanding hentry).2 _ hrule

theorem validatedOnly_eq_error {v : Validator D} {input : Json} {key : String} (h : key ∈ (v.errorsOf fm input).fields) :
    v.validatedOnly fm input = .error (v.errorsOf fm input) := by
  have hne : (v.errorsOf fm input).isEmpty = false := by
    rw [List.isEmpty_eq_false_iff]
    intro hnil
    rw [hnil] at h
    cases h
  simp [Validator.validatedOnly,Validator.validate,hne]

theorem errorsOf_of_validatedOnly {v : Validator D} {input : Json} {errors : ValidationErrors}
    (h : v.validatedOnly fm input = .error errors) : v.errorsOf fm input = errors := by
  rw [Validator.validatedOnly] at h
  split at h
  · next found hfound =>
    cases h
    exact (validate_eq_error hfound).symm
  · cases h

/-- A key that no pattern has for its first segment: a pattern whose expansion goes on from
the key makes the answer depend on what stands under it. -/
theorem not_sealed_of_reads {key : String} {rest : List String} (hpattern : pattern ∈ patterns) (hne : key ≠ "")
    (hdots : ∀ s ∈ key :: rest, '.' ∉ s.toList) (hkey : key ∉ patterns.map first) {a : List (String × Json)}
    (habsent : Json.field a key = none)
    (hexpand : ∀ field ∈ rest.foldl (fun expanded segment => expanded.flatMap
        (grow (.object ((key,witnessFor rest) :: a)) segment)) [key],
      field ∈ expand pattern (.object ((key,witnessFor rest) :: a))) : ¬ Sealed fm (demanding patterns pattern) := by
  intro h
  have hname : ∀ s ∈ [key], '.' ∉ s.toList := by
    intro s hs
    rw [List.mem_singleton.mp hs]
    exact hdots key List.mem_cons_self
  have hfield : Json.field ((key,witnessFor rest) :: a) key = some (witnessFor rest) := by
    rw [Json.field_cons,if_pos rfl]
  have hwalk : Json.walk (.object ((key,witnessFor rest) :: a)) [key] = some (witnessFor rest) := by
    rw [Json.walk_cons,Json.child,hfield]
    rfl
  -- the first path from the key on leads to null in one input and nowhere in the other
  obtain ⟨hmem,hnull⟩ := firstPath_mem_instances hwalk
  rw [List.singleton_append] at hmem hnull
  have hdotted := dotted_of_mem_instances hname (fun s hs => hdots s (List.mem_cons_of_mem key hs)) (.inl (by simp)) hmem
  have hfold := foldl_grow_join (.object ((key,witnessFor rest) :: a)) hne [] rest hname
    fun s hs => hdots s (List.mem_cons_of_mem key hs)
  rw [Text.join_singleton] at hfold
  have hin := hexpand _ (hfold ▸ List.mem_map_of_mem hmem)
  have hbad : Text.join '.' (key :: firstPath rest) ∈
      (Validator.errorsOf fm (demanding patterns pattern) (.object ((key,witnessFor rest) :: a))).fields := by
    rw [mem_fields_errorsOf]
    refine ⟨(pattern,[.notNull]),List.mem_map.mpr ⟨pattern,hpattern,by simp⟩,hin,?_⟩
    rw [hdotted.lookup_join,hnull,passes_cons]
    simp [Rule.check]
  have hsame := h.same a ((key,witnessFor rest) :: a) fun other hother => by
    rw [Json.field_cons,if_neg]
    rintro rfl
    exact hkey (names_demanding hother)
  rw [validatedOnly_eq_error hbad] at hsame
  rw [← errorsOf_of_validatedOnly hsame,mem_fields_errorsOf] at hbad
  obtain ⟨entry,hentry,_,hfails⟩ := hbad
  refine hfails fun rule hrule => ?_
  rw [(rules_demanding hentry).2 rule (List.takeWhile_subset _ hrule),lookup_object,first_join hdotted.no_dot,habsent]
  rfl

theorem exists_repr_not_mem (keys : List String) : ∃ n, Nat.repr n ∉ keys := by
  have hinj : Function.Injective Nat.repr := by
    intro m n h
    have hm : Text.parseUInt (max m n) m.repr = some m := Text.parseUInt_repr (Nat.le_max_left m n)
    rw [h,Text.parseUInt_repr (Nat.le_max_right m n)] at hm
    exact (Option.some.inj hm).symm
  obtain ⟨text,⟨n,rfl⟩,hn⟩ := (Set.infinite_range_of_injective hinj).exists_notMem_finite keys.finite_toSet
  exact ⟨n,hn⟩

theorem repr_ne_empty (n : ℕ) : Nat.repr n ≠ "" := by
  intro h
  have hlist := congrArg String.toList h
  rw [Nat.toList_repr] at hlist
  exact Nat.toDigits_ne_nil hlist

/-- A pattern that begins with a wildcard counts the elements of one key and reads others. -/
theorem not_sealed_of_wildcard (hpattern : pattern ∈ patterns) (hstar : '*' ∈ pattern.toList)
    (hstart : start pattern = some "*") : ¬ Sealed fm (demanding patterns pattern) := by
  obtain ⟨_,rest,hdots,hexpand⟩ := expand_of_start hstar hstart
  obtain ⟨n,hn⟩ := exists_repr_not_mem (patterns.map first)
  have hkey : ∀ s ∈ Nat.repr n :: rest, '.' ∉ s.toList := by
    intro s hs
    rcases List.mem_cons.mp hs with rfl | hs
    · exact dot_not_mem_repr n
    · exact hdots s (List.mem_cons_of_mem "*" hs)
  refine not_sealed_of_reads (a := [("",.array (List.replicate (n + 1) .null))]) hpattern (repr_ne_empty n) hkey hn
    (by simp [Json.field_cons,repr_ne_empty n]) fun field hfield => ?_
  have hempty : lookup (.object ((Nat.repr n,witnessFor rest) :: [("",.array (List.replicate (n + 1) .null))])) "" =
      some (.array (List.replicate (n + 1) .null)) := by
    rw [lookup_object]
    have hfirst : first "" = "" := by decide
    rw [hfirst,Json.field_cons,if_neg (repr_ne_empty n).symm,Json.field_cons,if_pos rfl]
    rfl
  rw [hexpand,List.foldl_cons,List.flatMap_singleton,grow,if_neg (by simp),hempty,foldl_grow,List.mem_flatMap]
  exact ⟨Nat.repr n,List.mem_map.mpr ⟨n,by simp [indices],rfl⟩,hfield⟩

theorem not_sealed_of_name {name : String} (hpattern : pattern ∈ patterns) (hstar : '*' ∈ pattern.toList)
    (hstart : start pattern = some name) (hwild : name ≠ "*") (hname : name ∉ patterns.map first) :
    ¬ Sealed fm (demanding patterns pattern) := by
  obtain ⟨hne,rest,hdots,hexpand⟩ := expand_of_start hstar hstart
  refine not_sealed_of_reads (a := []) hpattern hne hdots hname rfl fun field hfield => ?_
  rw [hexpand,List.foldl_cons,List.flatMap_singleton,grow_name _ hwild]
  exact hfield

/-- Without rules every input is valid, and the roots of all patterns are kept. -/
theorem root_mem_of_sealed (h : ∀ v : Validator D, v.rules.map Prod.fst = patterns → Sealed fm v) (hpattern : pattern ∈ patterns)
    (hroot : root pattern ≠ "") : root pattern ∈ patterns.map first := by
  have hpatterns : (patterns.map fun q => (q,([] : List (Rule D)))).map Prod.fst = patterns := by simp [Function.comp_def]
  have hvalid : Validator.validate fm ⟨patterns.map fun q => (q,([] : List (Rule D))),[]⟩ (.object [(root pattern,.null)]) =
      .ok () := by
    rw [validate_eq_ok]
    intro key hkey
    obtain ⟨entry,hentry,_,hfails⟩ := mem_fields_errorsOf.mp hkey
    obtain ⟨q,_,rfl⟩ := List.mem_map.mp hentry
    exact hfails (by simp [Passes])
  have hfield : Json.field [(root pattern,.null)] (root pattern) = some .null := by rw [Json.field_cons,if_pos rfl]
  have hkept : (Json.field (patterns.foldl (keep (.object [(root pattern,.null)])) []) (root pattern)).isSome :=
    field_kept hpattern hroot (by simp [hfield])
  obtain ⟨fields,heq,hfields⟩ := (h ⟨_,[]⟩ hpatterns).only [(root pattern,.null)] _ (by rw [Validator.validatedOnly,hvalid])
  rw [hpatterns] at heq
  cases heq
  obtain ⟨value,hvalue⟩ := Option.isSome_iff_exists.mp hkept
  obtain ⟨before,after,hsplit,_⟩ := List.lookup_eq_some_iff.mp hvalue
  rw [hsplit] at hfields
  have hmem := (hfields (root pattern,value) (List.mem_append_right before List.mem_cons_self)).1
  rwa [← map_first_rules,hpatterns] at hmem

end Leaks

/-- For every list of patterns: whatever rules and messages go with them, a validator lets
nothing through that is not named, just when the patterns are closed. -/
theorem sealed_iff (fm : Formats D) (patterns : List String) :
    (∀ v : Validator D, v.rules.map Prod.fst = patterns → Sealed fm v) ↔ Closed patterns := by
  constructor
  · intro h pattern hpattern hstar
    have hsealed := h (demanding patterns pattern) demanding_patterns
    obtain ⟨name,hstart⟩ := exists_start hstar
    refine ⟨⟨name,?_,hstart,?_⟩,?_⟩
    · by_contra hname
      by_cases hwild : name = "*"
      · subst hwild
        exact not_sealed_of_wildcard hpattern hstar hstart hsealed
      · exact not_sealed_of_name hpattern hstar hstart hwild hname hsealed
    · rintro rfl
      exact not_sealed_of_wildcard hpattern hstar hstart hsealed
    · by_contra hroot
      rw [not_or] at hroot
      exact hroot.2 (root_mem_of_sealed h hpattern hroot.1)
  · rintro h v rfl
    exact sealed_of_closed h

/-- Two inputs that differ in a key no pattern or rule names, whichever of `*` and the empty
text is the first segment of the pattern: the one is refused and the other is not. And a
key is kept that was never named. -/
theorem star_lets_through :
    Validator.validatedOnly plainFormats (.fromRules [("*",[.required])]) (.object [("",.array [.null])]) =
        .error [("0",["The 0 field is required."])] ∧
      Validator.validatedOnly plainFormats (.fromRules [("*",[.required])]) (.object [("",.array [.null]),("0",.bool true)]) =
        .ok (.object []) ∧
      Validator.validatedOnly plainFormats (.fromRules [("role*",[])]) (.object [("role",.string "admin")]) =
        .ok (.object [("role",.string "admin")]) ∧
      ¬ Sealed plainFormats (.fromRules [("*",[.required])]) ∧ ¬ Sealed plainFormats (.fromRules [("role*",[])]) := by
  have hrefused : Validator.validatedOnly plainFormats (.fromRules [("*",[.required])]) (.object [("",.array [.null])]) =
      .error [("0",["The 0 field is required."])] := by decide
  have hvalid : Validator.validatedOnly plainFormats (.fromRules [("*",[.required])])
      (.object [("",.array [.null]),("0",.bool true)]) = .ok (.object []) := by decide
  have hkept : Validator.validatedOnly plainFormats (.fromRules [("role*",[])]) (.object [("role",.string "admin")]) =
      .ok (.object [("role",.string "admin")]) := by decide
  refine ⟨hrefused,hvalid,hkept,fun h => ?_,fun h => ?_⟩
  · have hsame := h.same [("",.array [.null])] [("",.array [.null]),("0",.bool true)] fun key hkey => by
      have hstar : key = "*" := by
        cases hkey with
        | pattern hentry =>
          cases List.mem_singleton.mp hentry
          decide
        | same hentry hrule => cases List.mem_singleton.mp hentry; simp at hrule
        | different hentry hrule => cases List.mem_singleton.mp hentry; simp at hrule
        | confirmed hentry hrule _ => cases List.mem_singleton.mp hentry; simp at hrule
      subst hstar
      decide
    rw [hrefused,hvalid] at hsame
    cases hsame
  · obtain ⟨fields,heq,hfields⟩ := h.only [("role",.string "admin")] _ hkept
    cases heq
    exact absurd (hfields _ List.mem_cons_self).1 (by decide)

end Rainier.Validation
