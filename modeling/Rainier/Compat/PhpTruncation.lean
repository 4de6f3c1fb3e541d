import Rainier.Compat.PhpRoundTrip

/-! # No text of a value begins another

A text that the writer wrote is read to its end or not at all, and no part of it that breaks off is
read. This holds of every value, also of those the reader refuses: nested too deeply, or a reference
to slot zero.
-/
namespace Rainier.Compat.Php
open Rainier Scan
variable {F β : Type} {P : β → Prop}

theorem spells_error (what : String) (text : List UInt8) : Spells (error what : Parser β) text P := by
  apply Spells.of_fails
  intro s r h
  cases h

/-- A length that the reader's `i64` cannot hold is not read as another. -/
theorem toInt_of_parseInt_repr {n : ℤ} {m : Int64} (h : parseInt (Text.asBytes n.repr) = some m) : m.toInt = n := by
  rw [parseInt,Text.fromUtf8_asBytes] at h
  simp only [Option.bind_eq_bind,Option.bind_some] at h
  split_ifs at h
  obtain ⟨k,hk,rfl⟩ := Option.map_eq_some_iff.1 h
  rw [stripPrefix_plus_repr] at hk
  obtain ⟨hlo,hhi⟩ := Text.bounds_of_parseInt hk
  obtain rfl := Text.eq_of_parseInt_repr hk
  exact Int64.toInt_ofInt_of_le hlo (Int.lt_of_le_of_lt hhi (by decide))

theorem spells_expect (b : UInt8) : Spells (expect b) [b] fun _ => True := by
  constructor
  · intro pos rest c s' h
    rw [reads_expect b rest pos] at h
    cases h
    exact ⟨trivial,rfl⟩
  · intro pos p hp hne r h
    obtain rfl : p = [] := by
      rcases List.prefix_concat_iff.1 (show p <+: [] ++ [b] from hp) with heq | hnil
      · exact absurd heq hne
      · exact List.prefix_nil.1 hnil
    cases h

theorem spells_untilByte {stop : UInt8} {text : List UInt8} (hs : stop ∉ text) :
    Spells (untilByte stop) (text ++ [stop]) (· = text) := by
  constructor
  · intro pos rest b s' h
    rw [reads_untilByte hs rest pos] at h
    cases h
    exact ⟨rfl,rfl⟩
  · intro pos p hp hne r h
    -- a part that breaks off has no stop in it
    have hpre : p <+: text := (List.prefix_concat_iff.1 hp).resolve_left hne
    have hnone : p.idxOf? stop = none := List.idxOf?_eq_none_iff.2 fun hmem => hs (hpre.subset hmem)
    rw [untilByte_apply,hnone] at h
    cases h

theorem spells_take (bytes : List UInt8) : Spells (take bytes.length) bytes (· = bytes) := by
  constructor
  · intro pos rest b s' h
    rw [reads_take bytes rest pos] at h
    cases h
    exact ⟨rfl,rfl⟩
  · intro pos p hp hne r h
    have hlt : p.length < bytes.length := by
      by_contra hle
      exact hne (hp.eq_of_length_le (by omega))
    rw [take_apply,if_pos hlt] at h
    cases h

/-- A tag is looked at and then skipped. -/
theorem spells_tag {f : Option UInt8 → Parser β} {tag : UInt8} {g : Parser β} {text : List UInt8}
    (hnone : ∀ s r, f none s ≠ .ok r) (hsome : f (some tag) = advance 1 >>= fun _ => g) (hg : Spells g text P) :
    Spells (peek >>= f) ([tag] ++ text) P := by
  constructor
  · intro pos rest b s' h
    rw [bind_apply] at h
    change f (some tag) _ = _ at h
    rw [hsome,bind_apply] at h
    exact hg.whole (pos + 1) rest b s' h
  · intro pos p hp hne r h
    rw [bind_apply] at h
    cases p with
    | nil => exact hnone _ _ h
    | cons b p =>
      obtain ⟨rfl,hpre⟩ := List.cons_prefix_cons.1 hp
      change f (some b) _ = _ at h
      rw [hsome,bind_apply] at h
      exact hg.short (pos + 1) p hpre (fun heq => hne (by rw [heq]; rfl)) r h

/-! Numbers and the shared forms. -/

theorem spells_intUntil {stop : Char} (hstop : Stop stop) (n : ℤ) :
    Spells (intUntil (byte stop)) (Text.asBytes n.repr ++ [byte stop]) (·.toInt = n) := by
  have hnot : byte stop ∉ Text.asBytes n.repr :=
    byte_not_mem (fun c hc => Nat.lt_of_lt_of_le (repr_lt_colon _ c hc) hstop.range.1) hstop.range.2
  apply (spells_untilByte hnot).finish
  rintro _ rfl
  cases hparse : parseInt (Text.asBytes n.repr) with
  | none => exact spells_error _ _
  | some m => exact Spells.pure (toInt_of_parseInt_repr hparse)

theorem spells_lengthUntil {stop : Char} (hstop : Stop stop) (n : ℕ) :
    Spells (lengthUntil (byte stop)) (Text.asBytes n.repr ++ [byte stop]) (· = n) := by
  apply (spells_intUntil hstop n).finish
  intro m hm
  apply Spells.ite
  · exact spells_error _ _
  · have hremaining : Spells remaining [] fun _ => True := by
      refine ⟨fun pos rest b s' h => ?_,fun pos p hp hne => absurd (List.prefix_nil.1 hp) hne⟩
      cases h
      exact ⟨trivial,rfl⟩
    apply hremaining.finish
    intro left _
    apply Spells.ite
    · exact spells_error _ _
    · exact Spells.pure (by omega)

theorem spells_quoted (bytes : List UInt8) : Spells quoted (quotes bytes) (· = bytes) := by
  apply (spells_lengthUntil (.inl rfl) bytes.length).bind
  rintro _ rfl
  apply (spells_expect _).bind
  intro _ _
  apply (spells_take bytes).bind
  rintro _ rfl
  apply (spells_expect _).finish
  intro _ _
  exact Spells.pure rfl

theorem spells_name (s : String) : Spells name (quotes (Text.asBytes s)) (· = s) := by
  apply (spells_quoted (Text.asBytes s)).finish
  rintro _ rfl
  rw [Text.fromUtf8_asBytes]
  exact Spells.pure rfl

theorem spells_key (k : Key) : Spells key (writeKey k) (· = k) := by
  have hnone : ∀ s r, (error "an array key that is not an integer or a string" : Parser Key) s ≠ .ok r := by
    intro s r h
    cases h
  cases k with
  | int n =>
    rw [writeKey,writeInt_eq]
    apply spells_tag hnone (if_pos rfl)
    apply (spells_expect _).bind
    intro _ _
    apply (spells_intUntil (.inr rfl) n.toInt).finish
    intro m hm
    exact Spells.pure (by rw [Int64.toInt_inj.1 hm])
  | str bytes =>
    rw [writeKey,writeString_eq]
    apply spells_tag hnone ((if_neg (by decide)).trans (if_pos rfl))
    apply (spells_expect _).bind
    intro _ _
    apply (spells_quoted bytes).bind
    rintro _ rfl
    apply (spells_expect _).finish
    intro _ _
    exact Spells.pure rfl

/-! The clauses, after the colon. Nothing is said of the value that is read. -/

variable {t : FloatText F}

theorem spells_boolClause (b : Bool) :
    Spells (boolClause : Parser (Value F)) ([byte (if b then '1' else '0')] ++ [byte ';']) fun _ => True := by
  have hstop : byte ';' ∉ [byte (if b then '1' else '0')] := by
    cases b <;> decide
  apply (spells_untilByte hstop).finish
  intro text _
  exact Spells.ite (Spells.pure trivial) (Spells.ite (Spells.pure trivial) (spells_error _ _))

theorem spells_floatClause (f : F64 F) :
    Spells (floatClause t) (Text.asBytes (float t f) ++ [byte ';']) fun _ => True := by
  apply (spells_untilByte (float_not_stop t f)).finish
  rintro _ rfl
  rw [parseFloat_float]
  exact Spells.pure trivial

theorem spells_stringClause (bytes : List UInt8) :
    Spells (stringClause : Parser (Value F)) (quotes bytes ++ [byte ';']) fun _ => True := by
  apply (spells_quoted bytes).bind
  intro _ _
  apply (spells_expect _).finish
  intro _ _
  exact Spells.pure trivial

theorem spells_customClause (cls : String) (data : List UInt8) :
    Spells (customClause : Parser (Value F)) (quotes (Text.asBytes cls) ++ ([byte ':'] ++ (Text.asBytes (len data) ++
      [byte ':'] ++ ([byte '\x7b'] ++ (data ++ [byte '\x7d']))))) fun _ => True := by
  apply (spells_name cls).bind
  intro _ _
  apply (spells_expect _).bind
  intro _ _
  apply (spells_lengthUntil (.inl rfl) data.length).bind
  rintro _ rfl
  apply (spells_expect _).bind
  intro _ _
  apply (spells_take data).bind
  intro _ _
  apply (spells_expect _).finish
  intro _ _
  exact Spells.pure trivial

/-- An enum whose class has a colon in it is read as another, of the same length. -/
theorem spells_enumClause (name : String) :
    Spells (enumClause : Parser (Value F)) (quotes (Text.asBytes name) ++ [byte ';']) fun _ => True := by
  apply (spells_name name).bind
  rintro _ rfl
  apply (spells_expect _).finish
  intro _ _
  split
  · exact Spells.pure trivial
  · exact spells_error _ _

theorem spells_referenceClause (slot : ℕ) (aliased : Bool) :
    Spells (referenceClause aliased : Parser (Value F)) (Text.asBytes slot.repr ++ [byte ';']) fun _ => True := by
  apply (spells_intUntil (.inr rfl) slot).finish
  intro m _
  exact Spells.ite (Spells.pure trivial) (spells_error _ _)

theorem spells_arrayClause {inner : Parser (Value F)} {entries : List (Key × Value F)}
    (hv : ∀ e ∈ entries, Spells inner (write t e.2) fun _ => True) :
    Spells (arrayClause inner) (Text.asBytes entries.length.repr ++ [byte ':'] ++ ([byte '\x7b'] ++
      (writeEntries t entries ++ [byte '\x7d']))) fun _ => True := by
  apply (spells_lengthUntil (.inl rfl) entries.length).bind
  rintro _ rfl
  apply (spells_expect _).bind
  intro _ _
  rw [writeEntries_eq]
  have hentries : Spells (times (entry inner) entries.length) (entries.flatMap fun e => writeKey e.1 ++ write t e.2)
      fun _ => True := by
    apply Spells.times
    intro e he
    apply (spells_key e.1).bind
    intro _ _
    apply (hv e he).finish
    intro _ _
    exact Spells.pure trivial
  apply hentries.bind
  intro _ _
  apply (spells_expect _).finish
  intro _ _
  exact Spells.pure trivial

theorem spells_objectClause {inner : Parser (Value F)} (cls : String) {properties : List (Property × Value F)}
    (hv : ∀ p ∈ properties, Spells inner (write t p.2) fun _ => True) :
    Spells (objectClause inner) (quotes (Text.asBytes cls) ++ ([byte ':'] ++ (Text.asBytes properties.length.repr ++
      [byte ':'] ++ ([byte '\x7b'] ++ (writeProperties t properties ++ [byte '\x7d']))))) fun _ => True := by
  apply (spells_name cls).bind
  intro _ _
  apply (spells_expect _).bind
  intro _ _
  apply (spells_lengthUntil (.inl rfl) properties.length).bind
  rintro _ rfl
  apply (spells_expect _).bind
  intro _ _
  rw [writeProperties_eq]
  have hproperties : Spells (times (property inner) properties.length)
      (properties.flatMap fun p => writeString p.1.bytes ++ write t p.2) fun _ => True := by
    apply Spells.times
    intro p hp
    apply (spells_key (.str p.1.bytes)).bind
    intro _ _
    apply (hv p hp).finish
    intro _ _
    exact Spells.pure trivial
  apply hproperties.bind
  intro _ _
  apply (spells_expect _).finish
  intro _ _
  exact Spells.pure trivial

/-! Whole values, by the levels that may nest. -/

theorem spells_valueBody {inner : Option (Parser (Value F))} {tag : UInt8} {text written : List UInt8}
    (hw : written = [tag] ++ ([byte ':'] ++ text)) (htag : tag ≠ byte 'N')
    (h : Spells (clause t inner tag) text fun _ => True) : Spells (valueBody t inner) written fun _ => True := by
  rw [hw]
  apply spells_tag
  · intro s r hok
    cases hok
  · dsimp only
  · rw [if_neg htag]
    apply (spells_expect _).bind
    intro _ _
    exact h

/-- What is nested in a value is read by `inner`, where anything may nest. -/
theorem spells_write {inner : Option (Parser (Value F))}
    (hinner : ∀ m, inner = some m → ∀ v, Spells m (write t v) fun _ => True) (v : Value F) :
    Spells (valueBody t inner) (write t v) fun _ => True := by
  cases v with
  | null =>
    rw [write,show Text.asBytes "N;" = [byte 'N'] ++ [byte ';'] from rfl]
    apply spells_tag
    · intro s r hok
      cases hok
    · dsimp only
    · rw [if_pos rfl]
      apply (spells_expect _).finish
      intro _ _
      exact Spells.pure trivial
  | bool b => exact spells_valueBody (write_bool t b) (by decide) (spells_boolClause b)
  | int n =>
    have hclause : Spells (clause t inner (byte 'i')) (Text.asBytes n.toInt.repr ++ [byte ';']) fun _ => True := by
      apply (spells_intUntil (.inr rfl) n.toInt).finish
      intro _ _
      exact Spells.pure trivial
    apply spells_valueBody ?_ (by decide) hclause
    rw [write,writeInt_eq]
  | float f => exact spells_valueBody (write_float t f) (by decide) (spells_floatClause f)
  | string bytes =>
    have hwritten : write t (.string bytes) = [byte 's'] ++ ([byte ':'] ++ (quotes bytes ++ [byte ';'])) := by
      rw [write,writeString_eq]
    exact spells_valueBody hwritten (by decide) (spells_stringClause bytes)
  | array entries =>
    apply spells_valueBody (write_array t entries) (by decide)
    cases inner with
    | none => exact spells_error _ _
    | some m => exact spells_arrayClause fun e _ => hinner m rfl e.2
  | object cls properties =>
    apply spells_valueBody (write_object t cls properties) (by decide)
    cases inner with
    | none => exact spells_error _ _
    | some m => exact spells_objectClause cls fun p _ => hinner m rfl p.2
  | custom cls data => exact spells_valueBody (write_custom t cls data) (by decide) (spells_customClause cls data)
  | enum cls case => exact spells_valueBody (write_enum t cls case) (by decide) (spells_enumClause _)
  | reference slot aliased =>
    apply spells_valueBody (write_reference t slot aliased)
    · cases aliased <;> decide
    · cases aliased
      · exact spells_referenceClause slot false
      · exact spells_referenceClause slot true

theorem spells_value (room : ℕ) (v : Value F) : Spells (value t room) (write t v) fun _ => True := by
  induction room generalizing v with
  | zero =>
    apply spells_write
    intro m hm
    cases hm
  | succ room ih =>
    apply spells_write
    intro m hm
    cases hm
    exact ih

/-- A document that is accepted ends where its value does. -/
theorem unserialize_eq_ok {input : List UInt8} {v : Value F} (h : unserialize t input = .ok v) :
    ∃ s, value t 64 ⟨0,input⟩ = .ok (v,s) ∧ s.rest = [] := by
  rw [unserialize,unserializeWith,document,bind_apply] at h
  cases hvalue : value t 64 ⟨0,input⟩ with
  | error e => rw [hvalue] at h; cases h
  | ok r =>
    obtain ⟨v',s⟩ := r
    rw [hvalue] at h
    change ((if s.rest.length ≠ 0 then error "trailing bytes after the value" else pure v' : Parser (Value F)) s).map
      Prod.fst = .ok v at h
    split_ifs at h with hrest
    · cases h
    · cases h
      exact ⟨s,rfl,List.length_eq_zero_iff.1 (not_not.1 hrest)⟩

/-- Neither what breaks off nor what goes on is accepted. -/
theorem serialize_delimits (t : FloatText F) (v : Value F) :
    (∀ p, p <+: serialize t v → p ≠ serialize t v → ∃ e, unserialize t p = .error e) ∧
      ∀ s, s ≠ [] → ∃ e, unserialize t (serialize t v ++ s) = .error e := by
  have hspells := spells_value (t := t) 64 v
  constructor
  · intro p hp hne
    cases hread : unserialize t p with
    | error e => exact ⟨e,rfl⟩
    | ok w =>
      obtain ⟨left,hvalue,-⟩ := unserialize_eq_ok hread
      exact absurd hvalue (hspells.short 0 p hp hne (w,left))
  · intro s hne
    cases hread : unserialize t (serialize t v ++ s) with
    | error e => exact ⟨e,rfl⟩
    | ok w =>
      obtain ⟨left,hvalue,hnil⟩ := unserialize_eq_ok hread
      have hrest := (hspells.whole 0 s w left hvalue).2
      exact absurd (hrest.symm.trans hnil) hne

end Rainier.Compat.Php
