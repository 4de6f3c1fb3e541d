import Rainier.Validation.Validator

/-! # What a wildcard stands for

A pattern is taken apart into segments, and each `*` is replaced by the indices of the
array that is found at the path so far. The validator expands texts instead of paths;
the two agree when a pattern with a wildcard begins with a name.
-/
namespace Rainier.Validation
open Rainier

/-- The ways to replace the wildcards of what is left of a pattern, after a path. -/
def instances (input : Json) (done : List String) : List String → List (List String)
  | [] => [done]
  | segment :: rest =>
    if segment ≠ "*" then instances input (done ++ [segment]) rest
    else (indices (input.walk done)).flatMap fun i => instances input (done ++ [Nat.repr i]) rest

/-- The input is valid when the value at every path a pattern stands for passes the
pattern's rules, and otherwise the paths that do not are the fields that failed. -/
structure Meets {D : Type} (fm : Formats D) (v : Validator D) (input : Json) : Prop where
  ok : v.validate fm input = .ok () ↔ ∀ entry ∈ v.rules, ∀ path ∈ instances input [] (Text.split '.' entry.1),
    Passes fm (Text.join '.' path) (input.walk path) input entry.2
  fields : ∀ errors, v.validate fm input = .error errors → ∀ key, key ∈ errors.fields ↔
    ∃ entry ∈ v.rules, ∃ path ∈ instances input [] (Text.split '.' entry.1),
      key = Text.join '.' path ∧ ¬ Passes fm (Text.join '.' path) (input.walk path) input entry.2

/-- A pattern with a wildcard begins with a name. -/
def Rooted (pattern : String) : Prop :=
  '*' ∈ pattern.toList → (Text.split '.' pattern).head? ≠ some "*" ∧ (Text.split '.' pattern).head? ≠ some ""

instance (pattern : String) : Decidable (Rooted pattern) := inferInstanceAs (Decidable (_ → _))

/-! ## Paths and texts -/

/-- A path that is the same whether taken as segments or as a text. -/
structure Dotted (path : List String) : Prop where
  ne_nil : path ≠ []
  no_dot : ∀ s ∈ path, '.' ∉ s.toList

theorem Dotted.concat {path : List String} (h : ∀ s ∈ path, '.' ∉ s.toList) {segment : String} (hs : '.' ∉ segment.toList) :
    Dotted (path ++ [segment]) where
  ne_nil := by simp
  no_dot s hmem := by
    rcases List.mem_append.mp hmem with hmem | hmem
    · exact h s hmem
    · rw [List.mem_singleton.mp hmem]
      exact hs

theorem Dotted.lookup_join {path : List String} (h : Dotted path) (input : Json) :
    lookup input (Text.join '.' path) = input.walk path := by
  rw [lookup,Text.split_join h.ne_nil h.no_dot]

theorem dot_not_mem_repr (i : ℕ) : '.' ∉ (Nat.repr i).toList := by
  rw [Nat.toList_repr]
  intro h
  exact absurd (Text.isDigit_of_mem_toDigits h) (by decide)

theorem join_ne_empty {h : String} (hne : h ≠ "") (rest : List String) : (Text.join '.' (h :: rest)).isEmpty = false := by
  rw [String.isEmpty_eq_false_iff]
  cases rest with
  | nil =>
    rw [Text.join_singleton]
    exact hne
  | cons s rest =>
    rw [Text.join_cons (List.cons_ne_nil s rest)]
    simp

section Expansion
variable {input : Json}

/-- The prefixes are expanded each for itself. -/
theorem foldl_grow (segments starts : List String) :
    segments.foldl (fun expanded segment => expanded.flatMap (grow input segment)) starts =
      starts.flatMap fun start => segments.foldl (fun expanded segment => expanded.flatMap (grow input segment)) [start] := by
  induction segments generalizing starts with
  | nil => simp
  | cons segment rest ih =>
    simp only [List.foldl_cons]
    rw [ih,List.flatMap_assoc]
    refine List.flatMap_congr fun start _ => ?_
    rw [List.flatMap_singleton,ih (grow input segment start)]

/-- From a path that begins with a name, texts and paths are expanded alike. -/
theorem foldl_grow_join (input : Json) {first : String} (hfirst : first ≠ "") (rest segments : List String)
    (hdone : ∀ s ∈ first :: rest, '.' ∉ s.toList) (hsegments : ∀ s ∈ segments, '.' ∉ s.toList) :
    segments.foldl (fun expanded segment => expanded.flatMap (grow input segment)) [Text.join '.' (first :: rest)] =
      (instances input (first :: rest) segments).map (Text.join '.') := by
  induction segments generalizing rest with
  | nil => rfl
  | cons segment segments ih =>
    have hjoin (s : String) : join (Text.join '.' (first :: rest)) s = Text.join '.' (first :: (rest ++ [s])) := by
      rw [join,join_ne_empty hfirst,if_neg (by decide),← List.cons_append,Text.join_concat (List.cons_ne_nil first rest)]
      rfl
    have hnext (s : String) (hs : '.' ∉ s.toList) :
        segments.foldl (fun expanded segment => expanded.flatMap (grow input segment)) [join (Text.join '.' (first :: rest)) s] =
          (instances input (first :: (rest ++ [s])) segments).map (Text.join '.') := by
      rw [hjoin]
      refine ih (rest ++ [s]) (fun t ht => ?_) fun t ht => hsegments t (List.mem_cons_of_mem segment ht)
      exact (Dotted.concat hdone hs).no_dot t ht
    rw [List.foldl_cons,List.flatMap_singleton,grow,instances]
    split
    · exact hnext segment (hsegments segment List.mem_cons_self)
    · rw [(Dotted.mk (List.cons_ne_nil first rest) hdone).lookup_join,foldl_grow,List.flatMap_map,List.map_flatMap]
      exact List.flatMap_congr fun i _ => hnext _ (dot_not_mem_repr i)

/-- Without a wildcard a pattern stands for itself. -/
theorem instances_plain {segments : List String} (h : "*" ∉ segments) (done : List String) :
    instances input done segments = [done ++ segments] := by
  induction segments generalizing done with
  | nil => simp [instances]
  | cons segment segments ih =>
    rw [List.mem_cons,not_or] at h
    rw [instances,if_pos (Ne.symm h.1),ih h.2,List.append_assoc]
    rfl

theorem expand_eq {pattern : String} (h : Rooted pattern) (input : Json) :
    expand pattern input = (instances input [] (Text.split '.' pattern)).map (Text.join '.') := by
  rw [expand]
  split
  · next hstar =>
    have hplain : "*" ∉ Text.split '.' pattern := fun hmem => hstar (Text.mem_of_mem_split hmem (by decide))
    rw [instances_plain hplain,List.nil_append,List.map_singleton,Text.join_split]
  · next hstar =>
    obtain ⟨hwild,hempty⟩ := h (not_not.mp hstar)
    have hdots : ∀ s ∈ Text.split '.' pattern, '.' ∉ s.toList := fun s hs => Text.not_mem_of_mem_split hs
    obtain ⟨first,rest,hsplit⟩ := List.exists_cons_of_ne_nil (Text.split_ne_nil pattern)
    rw [hsplit] at hwild hempty hdots ⊢
    have hname : first ≠ "*" := fun heq => hwild (congrArg some heq)
    have hfirst : first ≠ "" := fun heq => hempty (congrArg some heq)
    have hone : ∀ s ∈ [first], '.' ∉ s.toList := by
      intro s hs
      rw [List.mem_singleton.mp hs]
      exact hdots first List.mem_cons_self
    have hstart := foldl_grow_join input hfirst [] rest hone fun s hs => hdots s (List.mem_cons_of_mem first hs)
    rw [Text.join_singleton] at hstart
    rw [instances,if_pos hname,List.foldl_cons,List.flatMap_singleton,grow,if_pos hname]
    exact hstart

/-- The paths a pattern stands for are read as they are written. -/
theorem dotted_of_mem_instances {done segments path : List String} (hdone : ∀ s ∈ done, '.' ∉ s.toList)
    (hsegments : ∀ s ∈ segments, '.' ∉ s.toList) (hne : done ≠ [] ∨ segments ≠ [])
    (h : path ∈ instances input done segments) : Dotted path := by
  induction segments generalizing done with
  | nil =>
    rw [instances,List.mem_singleton] at h
    subst h
    exact ⟨by simpa using hne,hdone⟩
  | cons segment segments ih =>
    have hrest : ∀ s ∈ segments, '.' ∉ s.toList := fun s hs => hsegments s (List.mem_cons_of_mem segment hs)
    have hnext (s : String) (hs : '.' ∉ s.toList) (hpath : path ∈ instances input (done ++ [s]) segments) : Dotted path :=
      ih (Dotted.concat hdone hs).no_dot hrest (.inl (by simp)) hpath
    rw [instances] at h
    split at h
    · exact hnext segment (hsegments segment List.mem_cons_self) h
    · obtain ⟨i,_,h⟩ := List.mem_flatMap.mp h
      exact hnext _ (dot_not_mem_repr i) h

end Expansion

section Meets
variable {D : Type} {fm : Formats D} {v : Validator D} {input : Json}

theorem mem_fields_of_rooted (h : ∀ entry ∈ v.rules, Rooted entry.1) {key : String} :
    key ∈ (v.errorsOf fm input).fields ↔ ∃ entry ∈ v.rules, ∃ path ∈ instances input [] (Text.split '.' entry.1),
      key = Text.join '.' path ∧ ¬ Passes fm (Text.join '.' path) (input.walk path) input entry.2 := by
  have hlookup (pattern : String) (path : List String) (hpath : path ∈ instances input [] (Text.split '.' pattern)) :
      lookup input (Text.join '.' path) = input.walk path :=
    (dotted_of_mem_instances (by simp) (fun s hs => Text.not_mem_of_mem_split hs) (.inr (Text.split_ne_nil pattern))
      hpath).lookup_join input
  rw [mem_fields_errorsOf]
  constructor
  · rintro ⟨entry,hentry,hkey,hfails⟩
    rw [expand_eq (h entry hentry)] at hkey
    obtain ⟨path,hpath,rfl⟩ := List.mem_map.mp hkey
    rw [hlookup entry.1 path hpath] at hfails
    exact ⟨entry,hentry,path,hpath,rfl,hfails⟩
  · rintro ⟨entry,hentry,path,hpath,rfl,hfails⟩
    rw [← hlookup entry.1 path hpath] at hfails
    refine ⟨entry,hentry,?_,hfails⟩
    rw [expand_eq (h entry hentry)]
    exact List.mem_map_of_mem hpath

theorem meets_of_rooted (h : ∀ entry ∈ v.rules, Rooted entry.1) : Meets fm v input where
  ok := by
    rw [validate_eq_ok]
    constructor
    · intro hnone entry hentry path hpath
      by_contra hfails
      exact hnone _ ((mem_fields_of_rooted h).mpr ⟨entry,hentry,path,hpath,rfl,hfails⟩)
    · intro hall key hkey
      obtain ⟨entry,hentry,path,hpath,_,hfails⟩ := (mem_fields_of_rooted h).mp hkey
      exact hfails (hall entry hentry path hpath)
  fields errors herrors key := by
    rw [validate_eq_error herrors]
    exact mem_fields_of_rooted h

end Meets

/-! ## A pattern that does not begin with a name -/

/-- A value with a path for the segments, and nothing at its end. -/
def witnessFor : List String → Json
  | [] => .null
  | segment :: rest => if segment = "*" then .array [witnessFor rest] else .object [(segment,witnessFor rest)]

/-- The segments with the first element for each wildcard. -/
def firstPath (segments : List String) : List String := segments.map fun s => if s = "*" then "0" else s

theorem firstPath_mem_instances {input : Json} {done segments : List String}
    (h : input.walk done = some (witnessFor segments)) :
    done ++ firstPath segments ∈ instances input done segments ∧
      input.walk (done ++ firstPath segments) = some .null := by
  induction segments generalizing done with
  | nil => exact ⟨by simp [firstPath,instances],by simpa [firstPath,witnessFor] using h⟩
  | cons segment segments ih =>
    by_cases hstar : segment = "*"
    · have hpath : firstPath (segment :: segments) = "0" :: firstPath segments := by simp [firstPath,hstar]
      have hwalk : input.walk (done ++ ["0"]) = some (witnessFor segments) := by
        rw [Json.walk_append,h,witnessFor,if_pos hstar]
        rfl
      rw [hpath,List.append_cons,instances,if_neg (by simp [hstar]),h,witnessFor,if_pos hstar]
      obtain ⟨hmem,hnull⟩ := ih hwalk
      refine ⟨List.mem_flatMap.mpr ⟨0,by simp [indices],hmem⟩,hnull⟩
    · have hpath : firstPath (segment :: segments) = segment :: firstPath segments := by simp [firstPath,hstar]
      have hwalk : input.walk (done ++ [segment]) = some (witnessFor segments) := by
        rw [Json.walk_append,h,witnessFor,if_neg hstar]
        simp [Json.walk_cons,Json.child,Json.field]
      rw [hpath,List.append_cons,instances,if_pos hstar]
      exact ih hwalk

/-- No field of a pattern with a wildcard begins with a dot. -/
theorem head_ne_dot_of_mem_expand {pattern field : String} {input : Json} (hstar : '*' ∈ pattern.toList)
    (h : field ∈ expand pattern input) : field.toList.head? ≠ some '.' := by
  rw [expand,if_neg (not_not.mpr hstar)] at h
  have hjoin (start segment : String) (hstart : start.toList.head? ≠ some '.') (hs : '.' ∉ segment.toList) :
      (join start segment).toList.head? ≠ some '.' := by
    rw [join]
    split
    · exact fun hhead => hs (List.mem_of_mem_head? hhead)
    · next hne =>
      obtain ⟨c,cs,hcs⟩ := List.exists_cons_of_ne_nil (fun hnil : start.toList = [] => hne (by simp_all))
      rw [hcs] at hstart
      simpa [hcs] using hstart
  have hfold (segments starts : List String) (hsegments : ∀ s ∈ segments, '.' ∉ s.toList)
      (hstarts : ∀ s ∈ starts, s.toList.head? ≠ some '.') : ∀ field ∈
        segments.foldl (fun expanded segment => expanded.flatMap (grow input segment)) starts, field.toList.head? ≠ some '.' := by
    induction segments generalizing starts with
    | nil => exact hstarts
    | cons segment segments ih =>
      refine ih _ (fun s hs => hsegments s (List.mem_cons_of_mem segment hs)) fun s hs => ?_
      obtain ⟨start,hstart,hs⟩ := List.mem_flatMap.mp hs
      rw [grow] at hs
      split at hs
      · rw [List.mem_singleton.mp hs]
        exact hjoin _ _ (hstarts start hstart) (hsegments segment List.mem_cons_self)
      · obtain ⟨i,_,rfl⟩ := List.mem_map.mp hs
        exact hjoin _ _ (hstarts start hstart) (dot_not_mem_repr i)
  exact hfold _ _ (fun s hs => Text.not_mem_of_mem_split hs) (by simp) field h

/-- A wildcard that stands first finds no elements, whatever the input is an array of. -/
theorem expand_leading_wildcard {pattern : String} {rest : List String} (hsplit : Text.split '.' pattern = "*" :: rest)
    (items : List Json) : expand pattern (.array items) = [] := by
  have hstar : '*' ∈ pattern.toList := Text.mem_of_mem_split (hsplit ▸ List.mem_cons_self) (by decide)
  rw [expand,if_neg (not_not.mpr hstar),hsplit,List.foldl_cons,List.flatMap_singleton]
  have hgrow : grow (.array items) "*" "" = [] := rfl
  rw [hgrow,foldl_grow]
  rfl

theorem not_passes_required {D : Type} (fm : Formats D) (field : String) (input : Json) :
    ¬ Passes fm field (some .null) input [.required] := by
  rw [passes_cons]
  simp [Rule.check,isFilled]

/-- A pattern with a wildcard that does not begin with a name: its first path is no field of it. -/
theorem firstPath_not_mem_expand {pattern : String} (h : ¬ Rooted pattern) :
    Text.join '.' (firstPath (Text.split '.' pattern)) ∉ expand pattern (witnessFor (Text.split '.' pattern)) := by
  rw [Rooted,Classical.not_imp,not_and_or,not_not,not_not] at h
  obtain ⟨hstar,hhead⟩ := h
  obtain ⟨first,rest,hsplit⟩ := List.exists_cons_of_ne_nil (Text.split_ne_nil pattern)
  rw [hsplit,List.head?_cons,Option.some_inj,Option.some_inj] at hhead
  rcases hhead with rfl | rfl
  · rw [hsplit,witnessFor,if_pos rfl,expand_leading_wildcard hsplit]
    exact List.not_mem_nil
  · have hrest : rest ≠ [] := by
      rintro rfl
      rw [← Text.join_split pattern,hsplit] at hstar
      cases hstar
    intro hmem
    refine head_ne_dot_of_mem_expand hstar hmem ?_
    have hpath : firstPath ("" :: rest) = "" :: firstPath rest := rfl
    rw [hsplit,hpath,Text.join_cons (by simpa [firstPath] using hrest)]
    simp

/-- For every list of patterns: whatever rules and messages go with them and whatever the
input is, a validator does what its patterns say, just when every pattern with a wildcard
begins with a name. -/
theorem validate_meets_iff {D : Type} (fm : Formats D) (patterns : List String) :
    (∀ (v : Validator D) (input : Json), v.rules.map Prod.fst = patterns → Meets fm v input) ↔
      ∀ pattern ∈ patterns, Rooted pattern := by
  constructor
  · intro h pattern hpattern
    by_contra hrooted
    -- the pattern alone demands something, of a value that is null where the pattern leads
    let v : Validator D := ⟨patterns.map fun q => (q,if q = pattern then [.required] else []),[]⟩
    have hv : v.rules.map Prod.fst = patterns := by
      simp [v,Function.comp_def]
    obtain ⟨hok,hfields⟩ := h v (witnessFor (Text.split '.' pattern)) hv
    obtain ⟨hmem,hnull⟩ := firstPath_mem_instances (Json.walk_nil (witnessFor (Text.split '.' pattern)))
    rw [List.nil_append] at hmem hnull
    have hentry : (pattern,[Rule.required]) ∈ v.rules := List.mem_map.mpr ⟨pattern,hpattern,by simp⟩
    have hfails : ¬ Passes fm (Text.join '.' (firstPath (Text.split '.' pattern)))
        ((witnessFor (Text.split '.' pattern)).walk (firstPath (Text.split '.' pattern)))
        (witnessFor (Text.split '.' pattern)) [Rule.required] := by
      rw [hnull]
      exact not_passes_required fm _ _
    cases hvalidate : v.validate fm (witnessFor (Text.split '.' pattern)) with
    | ok u => exact hfails (hok.mp hvalidate _ hentry _ hmem)
    | error errors =>
      have hkey := (hfields errors hvalidate _).mpr ⟨_,hentry,_,hmem,rfl,hfails⟩
      rw [validate_eq_error hvalidate,mem_fields_errorsOf] at hkey
      obtain ⟨entry,hin,hexpand,hrefused⟩ := hkey
      obtain ⟨q,_,rfl⟩ := List.mem_map.mp hin
      by_cases hq : q = pattern
      · subst hq
        exact firstPath_not_mem_expand hrooted hexpand
      · exact hrefused (by simp [hq,Passes])
  · intro h v input hv
    refine meets_of_rooted fun entry hentry => h entry.1 ?_
    rw [← hv]
    exact List.mem_map_of_mem hentry

/-- Formats without dates. -/
def plainFormats : Formats Unit where
  parseDate _ := none
  dateLt _ _ := false
  dateText _ := ""
  floatText _ := ""
  numberText _ := ""

/-- Every element of the input is required, and one is null. -/
theorem leading_wildcard_ignored :
    (Validator.fromRules [("*",[Rule.required])]).validate plainFormats (.array [.null]) = .ok () ∧
      ["0"] ∈ instances (.array [.null]) [] (Text.split '.' "*") ∧
      ¬ Meets plainFormats (.fromRules [("*",[.required])]) (.array [.null]) := by
  have hpath : ["0"] ∈ instances (.array [.null]) [] (Text.split '.' "*") := by decide
  refine ⟨rfl,hpath,fun h => ?_⟩
  have hpasses := h.ok.mp rfl _ List.mem_cons_self _ hpath
  exact not_passes_required plainFormats _ _ hpasses

end Rainier.Validation
