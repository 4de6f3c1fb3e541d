import Mathlib.Data.Set.Image
import Mathlib.Order.Interval.Set.Basic
import Rainier.Scheduler.Cron

/-! # What a cron expression says

The grammar's own reading of a field: the union of what its comma parts denote. Under
it a bare value with a step runs to the end of the field whatever the step, so `5/1`
is every value from five on; `bounds` looks at the size of the step and keeps only
the five. That run is all the code loses of the grammar.
-/
namespace Rainier.Scheduler
open Rainier

/-- A comma part as written, with its step where one is written. -/
inductive Part where
  | star (step : Option ℕ)
  | range (start stop : ℕ) (step : Option ℕ)
  | single (value : ℕ) (step : Option ℕ)
  deriving DecidableEq, Repr

/-- The values from `start` on, `step` apart, up to `stop`. -/
def progression (start stop step : ℕ) : Set ℕ := {v | ∃ k, v = start + k * step ∧ v ≤ stop}

namespace Part

/-- A part's text without its step, and the step. -/
def readStep (text : String) : Option (String × Option ℕ) :=
  match Text.splitOnce '/' text with
  | some (body,step) => (Text.parseUInt u32Max step).map fun n => (body,some n)
  | none => some (text,none)

def readBody (names : Names) (body : String) (step : Option ℕ) : Option Part :=
  if body = "*" then some (.star step)
  else match Text.splitOnce '-' body with
    | some (start,stop) => do
      let start ← names.read start
      let stop ← names.read stop
      return .range start stop step
    | none => do
      let value ← names.read body
      return .single value step

def read (names : Names) (text : String) : Option Part := do
  let (body,step) ← readStep text
  readBody names body step

def denotation (min max : ℕ) : Part → Set ℕ
  | .star step => progression min max (step.getD 1)
  | .range start stop step => progression start stop (step.getD 1)
  | .single value none => {value}
  | .single value (some step) => progression value max step

/-- The same, but for a bare value with a step of one, which does not run on. -/
def withoutRun (min max : ℕ) : Part → Set ℕ
  | .single value (some 1) => {value}
  | p => p.denotation min max

end Part

/-- The range a field is read over, and what its values stand for. -/
structure Column where
  min : ℕ
  max : ℕ
  names : Names
  norm : ℕ → ℕ
  top : ℕ

def Column.minute : Column := ⟨0,59,.numbers,id,59⟩
def Column.hour : Column := ⟨0,23,.numbers,id,23⟩
def Column.dayOfMonth : Column := ⟨1,31,.numbers,id,31⟩
def Column.month : Column := ⟨1,12,.months,id,12⟩

/-- Seven is read as zero. -/
def Column.dayOfWeek : Column := ⟨0,7,.days,(· % 7),6⟩

def Column.HasPart (c : Column) (text : String) (p : Part) : Prop :=
  ∃ s ∈ split ',' text, Part.read c.names (Text.trim s) = some p

/-- What a field denotes when its parts denote what `sem` says. -/
def Column.denotes (c : Column) (sem : ℕ → ℕ → Part → Set ℕ) (text : String) : Set ℕ :=
  {v | ∃ p, c.HasPart text p ∧ ∃ w ∈ sem c.min c.max p, c.norm w = v}

/-- The texts of an expression's fields, shorthands expanded. -/
def fieldTexts (expression : String) : List String :=
  splitWhitespace ((expandShorthand (Text.trim expression)).getD (Text.trim expression))

/-- The five texts with the columns they are read over. -/
def columnTexts (expression : String) : List (Column × String) :=
  [Column.minute,Column.hour,Column.dayOfMonth,Column.month,Column.dayOfWeek].zip (fieldTexts expression)

/-- The rule for the day: both fields where either is a star, one of them otherwise. -/
def DayRule (sem : ℕ → ℕ → Part → Set ℕ) (day weekday : String) (at' : DateTime) : Prop :=
  let dom := at'.day ∈ Column.dayOfMonth.denotes sem day
  let dow := at'.weekday ∈ Column.dayOfWeek.denotes sem weekday
  if day = "*" ∨ weekday = "*" then dom ∧ dow else dom ∨ dow

/-- The expression picks the moment, when its parts denote what `sem` says. -/
def Selects (sem : ℕ → ℕ → Part → Set ℕ) (expression : String) (at' : DateTime) : Prop :=
  ∃ minute hour day month weekday, fieldTexts expression = [minute,hour,day,month,weekday] ∧
    at'.minute ∈ Column.minute.denotes sem minute ∧ at'.hour ∈ Column.hour.denotes sem hour ∧
      at'.month ∈ Column.month.denotes sem month ∧ DayRule sem day weekday at'

/-- The moment is picked, and only by a value that a bare `a/1` runs on to. -/
def OnlyByRun (expression : String) (at' : DateTime) : Prop :=
  Selects Part.denotation expression at' ∧ ¬ Selects Part.withoutRun expression at'

/-! One part. -/

theorem mem_stepped {start stop step : ℕ} (hstep : 0 < step) (hle : start ≤ stop) (v : ℕ) :
    v ∈ stepped start stop step ↔ v ∈ progression start stop step := by
  constructor
  · intro h
    obtain ⟨k,hk,rfl⟩ := Finset.mem_image.mp h
    have hk' : k ≤ (stop - start) / step := Nat.lt_succ_iff.mp (Finset.mem_range.mp hk)
    have hmul : k * step ≤ stop - start := (Nat.le_div_iff_mul_le hstep).mp hk'
    exact ⟨k,rfl,by omega⟩
  · rintro ⟨k,rfl,hk⟩
    have hk' : k ≤ (stop - start) / step := (Nat.le_div_iff_mul_le hstep).mpr (by omega)
    exact Finset.mem_image.mpr ⟨k,Finset.mem_range.mpr (Nat.lt_succ_of_le hk'),rfl⟩

theorem progression_self (a step : ℕ) : progression a a step = {a} := by
  ext v
  constructor
  · rintro ⟨k,rfl,hk⟩
    have hzero : k * step = 0 := by omega
    simp [hzero]
  · rintro rfl
    exact ⟨0,by simp,le_refl v⟩

theorem start_mem_progression {start stop : ℕ} (hle : start ≤ stop) (step : ℕ) :
    start ∈ progression start stop step :=
  ⟨0,by simp,hle⟩

theorem progression_subset (start stop step : ℕ) : progression start stop step ⊆ Set.Icc start stop := by
  rintro v ⟨k,rfl,hk⟩
  exact ⟨Nat.le_add_right _ _,hk⟩

theorem rangeAndStep_spec {source field part body : String} {n : ℕ}
    (h : rangeAndStep source field part = .ok (body,n)) :
    ∃ step, Part.readStep part = some (body,step) ∧ n = step.getD 1 ∧ 0 < n := by
  unfold rangeAndStep at h
  unfold Part.readStep
  split at h
  · rename_i body' step hsplit
    split at h
    · rename_i m hm
      split at h
      · cases h
      · rename_i hne
        cases h
        exact ⟨some n,by simp [hsplit,hm],rfl,Nat.pos_of_ne_zero hne⟩
    · cases h
  · rename_i hsplit
    cases h
    exact ⟨none,by simp [hsplit],rfl,by decide⟩

theorem valueOf_spec {source field raw : String} {names : Names} {n : ℕ}
    (h : valueOf source field raw names = .ok n) : names.read raw = some n := by
  unfold valueOf at h
  split at h
  · rename_i value hvalue
    cases h
    exact hvalue
  · cases h

/-- What the code keeps of a part, against what the part denotes. -/
structure Kept (min max : ℕ) (p : Part) (values : Set ℕ) : Prop where
  values : values = p.withoutRun min max
  subset : p.withoutRun min max ⊆ p.denotation min max
  range : p.denotation min max ⊆ Set.Icc min max

theorem kept_progression {min max start stop n : ℕ} {p : Part} (hw : p.withoutRun min max = progression start stop n)
    (hd : p.denotation min max = p.withoutRun min max) (hlo : min ≤ start) (hhi : stop ≤ max) :
    Kept min max p (progression start stop n) where
  values := hw.symm
  subset := hd.symm.subset
  range := by
    rw [hd,hw]
    exact (progression_subset start stop n).trans (Set.Icc_subset_Icc hlo hhi)

theorem bounds_spec {source field body : String} {step : Option ℕ} {min max start stop : ℕ} {names : Names}
    (hpos : 0 < step.getD 1) (h : bounds source field body (step.getD 1) min max names = .ok (start,stop))
    (hle : start ≤ stop) (hlo : min ≤ start) (hhi : stop ≤ max) :
    ∃ p, Part.readBody names body step = some p ∧ Kept min max p (progression start stop (step.getD 1)) := by
  unfold bounds at h
  unfold Part.readBody
  split at h
  · rename_i hstar
    cases h
    rw [if_pos hstar]
    exact ⟨.star step,rfl,kept_progression rfl rfl hlo hhi⟩
  rename_i hstar
  rw [if_neg hstar]
  split at h
  · rename_i startText stopText hsplit
    obtain ⟨a,ha,h⟩ := bind_eq_ok.mp h
    obtain ⟨b,hb,h⟩ := bind_eq_ok.mp h
    cases h
    refine ⟨.range start stop step,?_,kept_progression rfl rfl hlo hhi⟩
    simp [hsplit,valueOf_spec ha,valueOf_spec hb]
  · rename_i hsplit
    obtain ⟨a,ha,h⟩ := bind_eq_ok.mp h
    refine ⟨.single a step,by simp [hsplit,valueOf_spec ha],?_⟩
    split at h
    · rename_i hbig
      cases h
      cases step with
      | none => simp at hbig
      | some n =>
        have hw : (Part.single start (some n)).withoutRun min max = progression start max n := by
          simp only [Option.getD_some] at hbig
          unfold Part.withoutRun
          split
          · rename_i heq
            cases heq
            omega
          · rfl
        refine kept_progression hw ?_ hlo hhi
        rw [hw]
        rfl
    · rename_i hsmall
      cases h
      have hone : step.getD 1 = 1 := by omega
      cases step with
      | none =>
        rw [progression_self]
        exact ⟨rfl,subset_refl _,by simpa [Part.denotation] using ⟨hlo,hhi⟩⟩
      | some n =>
        simp only [Option.getD_some] at hone
        subst hone
        rw [Option.getD_some,progression_self]
        refine ⟨rfl,?_,(progression_subset start max 1).trans (Set.Icc_subset_Icc hlo (le_refl max))⟩
        rintro v rfl
        exact start_mem_progression hhi 1

theorem partValues_spec {source field part : String} {min max : ℕ} {names : Names} {values : Finset ℕ}
    (h : partValues source field part min max names = .ok values) :
    ∃ p, Part.read names (Text.trim part) = some p ∧ Kept min max p (values : Set ℕ) ∧ values.Nonempty := by
  unfold partValues at h
  dsimp only at h
  split at h
  · cases h
  obtain ⟨⟨body,n⟩,hstep,h⟩ := bind_eq_ok.mp h
  obtain ⟨⟨start,stop⟩,hbounds,h⟩ := bind_eq_ok.mp h
  dsimp only at h hbounds
  split at h
  · cases h
  rename_i hle
  split at h
  · cases h
  rename_i hrange
  cases h
  obtain ⟨step,hread,rfl,hpos⟩ := rangeAndStep_spec hstep
  obtain ⟨p,hbody,hkept⟩ := bounds_spec hpos hbounds (by omega) (by omega) (by omega)
  have hset : (stepped start stop (step.getD 1) : Set ℕ) = progression start stop (step.getD 1) :=
    Set.ext fun v => mem_stepped hpos (by omega) v
  refine ⟨p,by simp [Part.read,hread,hbody],by rw [hset]; exact hkept,start,?_⟩
  exact (mem_stepped hpos (by omega) start).mpr (start_mem_progression (by omega) _)

/-! A whole field. -/

theorem parseParts_spec {source field : String} {min max : ℕ} {names : Names} {parts : List String}
    {before values : Finset ℕ} (h : parseParts source field min max names parts before = .ok values) :
    (∀ s ∈ parts, ∃ p vs, Part.read names (Text.trim s) = some p ∧ Kept min max p vs ∧ vs.Nonempty) ∧
      ∀ v, v ∈ values ↔ v ∈ before ∨
        ∃ s ∈ parts, ∃ p, Part.read names (Text.trim s) = some p ∧ v ∈ p.withoutRun min max := by
  induction parts generalizing before with
  | nil =>
    cases h
    simp
  | cons part parts ih =>
    obtain ⟨more,hmore,h⟩ := bind_eq_ok.mp h
    obtain ⟨hkeeps,hvalues⟩ := ih h
    obtain ⟨p,hread,hkept,hne⟩ := partValues_spec hmore
    have hmem : ∀ v, v ∈ more ↔ v ∈ p.withoutRun min max := fun v => Set.ext_iff.mp hkept.values v
    constructor
    · intro s hs
      rcases List.mem_cons.mp hs with rfl | hs
      · exact ⟨p,_,hread,hkept,hne⟩
      · exact hkeeps s hs
    · intro v
      rw [hvalues v,Finset.mem_union,hmem v]
      simp [hread,or_assoc]

/-- A field as the code keeps it, against its text. -/
structure Column.Keeps (c : Column) (text : String) (f : Field) : Prop where
  values : ∀ v, v ∈ f.values ↔ v ∈ c.denotes Part.withoutRun text
  wildcard : f.wildcard = decide (text = "*")
  subset : c.denotes Part.withoutRun text ⊆ c.denotes Part.denotation text
  nonempty : (c.denotes Part.denotation text).Nonempty
  range : c.denotes Part.denotation text ⊆ Set.Icc c.min c.top

theorem parseField_keeps {source text : String} {min max : ℕ} {names : Names} {f : Field}
    (h : parseField source text min max names = .ok f) : (Column.mk min max names id max).Keeps text f := by
  obtain ⟨values,hparts,h⟩ := bind_eq_ok.mp h
  split at h
  · cases h
  rename_i hne
  cases h
  obtain ⟨hkeeps,hvalues⟩ := parseParts_spec hparts
  have hpart : ∀ p, (Column.mk min max names id max).HasPart text p → ∃ vs, Kept min max p vs := by
    rintro p ⟨s,hs,hread⟩
    obtain ⟨p',vs,hread',hkept,_⟩ := hkeeps s hs
    rw [hread] at hread'
    cases hread'
    exact ⟨vs,hkept⟩
  have hmem : ∀ v, v ∈ values ↔ v ∈ (Column.mk min max names id max).denotes Part.withoutRun text := by
    intro v
    rw [hvalues v]
    simp only [Finset.notMem_empty,false_or]
    constructor
    · rintro ⟨s,hs,p,hread,hv⟩
      exact ⟨p,⟨s,hs,hread⟩,v,hv,rfl⟩
    · rintro ⟨p,⟨s,hs,hread⟩,w,hw,rfl⟩
      exact ⟨s,hs,p,hread,hw⟩
  have hsub : (Column.mk min max names id max).denotes Part.withoutRun text ⊆
      (Column.mk min max names id max).denotes Part.denotation text := by
    rintro v ⟨p,hp,w,hw,hv⟩
    obtain ⟨vs,hkept⟩ := hpart p hp
    exact ⟨p,hp,w,hkept.subset hw,hv⟩
  obtain ⟨v,hv⟩ := Finset.nonempty_iff_ne_empty.mpr hne
  refine ⟨hmem,rfl,hsub,⟨v,hsub ((hmem v).mp hv)⟩,?_⟩
  rintro v ⟨p,hp,w,hw,rfl⟩
  obtain ⟨vs,hkept⟩ := hpart p hp
  exact hkept.range hw

theorem parseDayOfWeek_keeps {source text : String} {f : Field} (h : parseDayOfWeek source text = .ok f) :
    Column.dayOfWeek.Keeps text f := by
  obtain ⟨parsed,hparsed,h⟩ := bind_eq_ok.mp h
  cases h
  have hraw := parseField_keeps hparsed
  -- the same parts, read modulo seven
  have hnorm : ∀ sem v, v ∈ Column.dayOfWeek.denotes sem text ↔
      ∃ w ∈ (Column.mk 0 7 .days id 7).denotes sem text, w % 7 = v := by
    intro sem v
    constructor
    · rintro ⟨p,hp,w,hw,rfl⟩
      exact ⟨w,⟨p,hp,w,hw,rfl⟩,rfl⟩
    · rintro ⟨w,⟨p,hp,w',hw,rfl⟩,rfl⟩
      exact ⟨p,hp,w',hw,rfl⟩
  refine ⟨?_,hraw.wildcard,?_,?_,?_⟩
  · intro v
    rw [hnorm,Finset.mem_filter,Finset.mem_image]
    constructor
    · rintro ⟨⟨w,hw,rfl⟩,_⟩
      exact ⟨w,(hraw.values w).mp hw,rfl⟩
    · rintro ⟨w,hw,rfl⟩
      exact ⟨⟨w,(hraw.values w).mpr hw,rfl⟩,by omega⟩
  · intro v hv
    obtain ⟨w,hw,rfl⟩ := (hnorm _ v).mp hv
    exact (hnorm _ _).mpr ⟨w,hraw.subset hw,rfl⟩
  · obtain ⟨w,hw⟩ := hraw.nonempty
    exact ⟨w % 7,(hnorm _ _).mpr ⟨w,hw,rfl⟩⟩
  · intro v hv
    obtain ⟨w,_,rfl⟩ := (hnorm _ v).mp hv
    exact ⟨Nat.zero_le _,Nat.lt_succ_iff.mp (Nat.mod_lt w (by decide))⟩

/-! The expression. -/

/-- An accepted expression: its five texts, each kept by its field. -/
structure CronExpression.Reads (c : CronExpression) (expression minute hour day month weekday : String) : Prop where
  texts : fieldTexts expression = [minute,hour,day,month,weekday]
  minutes : Column.minute.Keeps minute c.minutes
  hours : Column.hour.Keeps hour c.hours
  daysOfMonth : Column.dayOfMonth.Keeps day c.daysOfMonth
  months : Column.month.Keeps month c.months
  daysOfWeek : Column.dayOfWeek.Keeps weekday c.daysOfWeek

theorem CronExpression.reads_of_parse {expression : String} {c : CronExpression}
    (h : CronExpression.parse expression = .ok c) :
    ∃ minute hour day month weekday, c.Reads expression minute hour day month weekday := by
  have hfields : CronExpression.parseFields (Text.trim expression)
      ((expandShorthand (Text.trim expression)).getD (Text.trim expression)) = .ok c := by
    unfold CronExpression.parse at h
    dsimp only at h
    split at h
    · rename_i shorthand hs
      rw [hs]
      exact h
    · rename_i hs
      rw [hs]
      exact h
  unfold CronExpression.parseFields at hfields
  split at hfields
  · rename_i minute hour day month weekday htexts
    obtain ⟨minutes,hm,hfields⟩ := bind_eq_ok.mp hfields
    obtain ⟨hours,hh,hfields⟩ := bind_eq_ok.mp hfields
    obtain ⟨days,hd,hfields⟩ := bind_eq_ok.mp hfields
    obtain ⟨months,hmo,hfields⟩ := bind_eq_ok.mp hfields
    obtain ⟨weekdays,hw,hfields⟩ := bind_eq_ok.mp hfields
    cases hfields
    exact ⟨minute,hour,day,month,weekday,htexts,parseField_keeps hm,parseField_keeps hh,parseField_keeps hd,
      parseField_keeps hmo,parseDayOfWeek_keeps hw⟩
  · cases hfields

theorem CronExpression.Reads.selects_iff {c : CronExpression} {expression minute hour day month weekday : String}
    (h : c.Reads expression minute hour day month weekday) (sem : ℕ → ℕ → Part → Set ℕ) (at' : DateTime) :
    Selects sem expression at' ↔
      at'.minute ∈ Column.minute.denotes sem minute ∧ at'.hour ∈ Column.hour.denotes sem hour ∧
        at'.month ∈ Column.month.denotes sem month ∧ DayRule sem day weekday at' := by
  constructor
  · rintro ⟨minute',hour',day',month',weekday',htexts,hs⟩
    rw [h.texts] at htexts
    cases htexts
    exact hs
  · intro hs
    exact ⟨minute,hour,day,month,weekday,h.texts,hs⟩

/-- The code picks what the grammar picks when no bare `a/1` runs on. -/
theorem CronExpression.Reads.matches_iff {c : CronExpression} {expression minute hour day month weekday : String}
    (h : c.Reads expression minute hour day month weekday) (at' : DateTime) :
    c.matches at' = true ↔ Selects Part.withoutRun expression at' := by
  have hstar : (c.daysOfMonth.wildcard || c.daysOfWeek.wildcard) = true ↔ day = "*" ∨ weekday = "*" := by
    rw [h.daysOfMonth.wildcard,h.daysOfWeek.wildcard,Bool.or_eq_true,decide_eq_true_eq,decide_eq_true_eq]
  have hdays : (if c.daysOfMonth.wildcard || c.daysOfWeek.wildcard
      then c.daysOfMonth.matches at'.day && c.daysOfWeek.matches at'.weekday
      else c.daysOfMonth.matches at'.day || c.daysOfWeek.matches at'.weekday) = true ↔
      DayRule Part.withoutRun day weekday at' := by
    unfold DayRule Field.matches
    simp only [← h.daysOfMonth.values,← h.daysOfWeek.values]
    by_cases hs : day = "*" ∨ weekday = "*"
    · rw [if_pos (hstar.mpr hs),if_pos hs]
      simp
    · rw [if_neg (hs ∘ hstar.mp),if_neg hs]
      simp
  rw [h.selects_iff]
  simp only [← h.minutes.values,← h.hours.values,← h.months.values,← hdays]
  unfold CronExpression.matches
  split
  · rename_i hmiss
    simp only [Field.matches,Bool.or_eq_true,Bool.not_eq_true',decide_eq_false_iff_not] at hmiss
    simp only [Bool.false_eq_true,false_iff]
    rintro ⟨hm,hh,hmo,_⟩
    rcases hmiss with (hmiss | hmiss) | hmiss
    · exact hmiss hm
    · exact hmiss hh
    · exact hmiss hmo
  · rename_i hhit
    simp only [Field.matches,Bool.or_eq_true,Bool.not_eq_true',decide_eq_false_iff_not,not_or,not_not] at hhit
    exact ⟨fun hd => ⟨hhit.1.1,hhit.1.2,hhit.2,hd⟩,fun hd => hd.2.2.2⟩

theorem CronExpression.Reads.selects_mono {c : CronExpression} {expression minute hour day month weekday : String}
    (h : c.Reads expression minute hour day month weekday) {at' : DateTime}
    (hs : Selects Part.withoutRun expression at') : Selects Part.denotation expression at' := by
  obtain ⟨hm,hh,hmo,hd⟩ := (h.selects_iff _ at').mp hs
  refine (h.selects_iff _ at').mpr ⟨h.minutes.subset hm,h.hours.subset hh,h.months.subset hmo,?_⟩
  unfold DayRule at hd ⊢
  dsimp only at hd ⊢
  split at hd
  · rename_i hstar
    rw [if_pos hstar]
    exact ⟨h.daysOfMonth.subset hd.1,h.daysOfWeek.subset hd.2⟩
  · rename_i hstar
    rw [if_neg hstar]
    exact hd.imp (fun hd => h.daysOfMonth.subset hd) fun hd => h.daysOfWeek.subset hd

theorem CronExpression.Reads.denotes_within {c : CronExpression} {expression minute hour day month weekday : String}
    (h : c.Reads expression minute hour day month weekday) :
    ∀ f ∈ columnTexts expression, (f.1.denotes Part.denotation f.2).Nonempty ∧
      f.1.denotes Part.denotation f.2 ⊆ Set.Icc f.1.min f.1.top := by
  unfold columnTexts
  rw [h.texts]
  intro f hf
  simp only [List.zip_cons_cons,List.zip_nil_left,List.mem_cons,List.not_mem_nil,or_false] at hf
  rcases hf with rfl | rfl | rfl | rfl | rfl
  · exact ⟨h.minutes.nonempty,h.minutes.range⟩
  · exact ⟨h.hours.nonempty,h.hours.range⟩
  · exact ⟨h.daysOfMonth.nonempty,h.daysOfMonth.range⟩
  · exact ⟨h.months.nonempty,h.months.range⟩
  · exact ⟨h.daysOfWeek.nonempty,h.daysOfWeek.range⟩

/-- An accepted expression fires at a moment exactly when the grammar says so, with every
field denoting something and nothing outside its range, unless the moment is picked only
by a value that a bare `a/1` runs on to. -/
theorem matches_denotation_iff {expression : String} {c : CronExpression}
    (h : CronExpression.parse expression = .ok c) (at' : DateTime) :
    ((c.matches at' = true ↔ Selects Part.denotation expression at') ∧
      ∀ f ∈ columnTexts expression, (f.1.denotes Part.denotation f.2).Nonempty ∧
        f.1.denotes Part.denotation f.2 ⊆ Set.Icc f.1.min f.1.top) ↔ ¬ OnlyByRun expression at' := by
  obtain ⟨minute,hour,day,month,weekday,hreads⟩ := CronExpression.reads_of_parse h
  rw [hreads.matches_iff at']
  constructor
  · rintro ⟨hiff,_⟩ ⟨hs,hrun⟩
    exact hrun (hiff.mpr hs)
  · intro hrun
    refine ⟨⟨hreads.selects_mono,fun hs => ?_⟩,hreads.denotes_within⟩
    by_contra hmiss
    exact hrun ⟨hs,hmiss⟩

theorem every_fifteen_from_five : ∃ c, CronExpression.parse "5/15 9 * * mon-fri" = .ok c ∧
    (((c.matches ⟨20,9,2,1,5⟩ = true ↔ Selects Part.denotation "5/15 9 * * mon-fri" ⟨20,9,2,1,5⟩) ∧
      ∀ f ∈ columnTexts "5/15 9 * * mon-fri", (f.1.denotes Part.denotation f.2).Nonempty ∧
        f.1.denotes Part.denotation f.2 ⊆ Set.Icc f.1.min f.1.top) ↔
          ¬ OnlyByRun "5/15 9 * * mon-fri" ⟨20,9,2,1,5⟩) := by
  have hok : (CronExpression.parse "5/15 9 * * mon-fri").isOk = true := by decide
  cases h : CronExpression.parse "5/15 9 * * mon-fri" with
  | error e =>
    rw [h] at hok
    cases hok
  | ok c => exact ⟨c,rfl,matches_denotation_iff h _⟩

/-- Every minute from five on, at six past midnight on a first of January: the grammar
picks it and the code does not. -/
theorem five_slash_one_misses_six : ∃ c, CronExpression.parse "5/1 * * * *" = .ok c ∧
    c.matches ⟨6,0,1,1,4⟩ = false ∧ Selects Part.denotation "5/1 * * * *" ⟨6,0,1,1,4⟩ := by
  have hok : (CronExpression.parse "5/1 * * * *").toOption.map (·.matches ⟨6,0,1,1,4⟩) = some false := by decide
  have hstar : ∀ c : Column, ∀ v, c.min ≤ v → v ≤ c.max → c.norm v = v → v ∈ c.denotes Part.denotation "*" := by
    intro c v hlo hhi hnorm
    refine ⟨.star none,⟨"*",by decide,rfl⟩,v,⟨v - c.min,?_,hhi⟩,hnorm⟩
    simp only [Option.getD_none]
    omega
  cases h : CronExpression.parse "5/1 * * * *" with
  | error e =>
    rw [h] at hok
    cases hok
  | ok c =>
    rw [h] at hok
    refine ⟨c,rfl,Option.some.inj hok,"5/1","*","*","*","*",by decide,?_,?_,?_,?_⟩
    · exact ⟨.single 5 (some 1),⟨"5/1",by decide,by decide⟩,6,⟨1,rfl,by decide⟩,rfl⟩
    · exact hstar Column.hour 0 (by decide) (by decide) rfl
    · exact hstar Column.month 1 (by decide) (by decide) rfl
    · unfold DayRule
      dsimp only
      rw [if_pos (by decide)]
      exact ⟨hstar Column.dayOfMonth 1 (by decide) (by decide) rfl,
        hstar Column.dayOfWeek 4 (by decide) (by decide) rfl⟩

end Rainier.Scheduler
