import Rainier.Scheduler.CronGrammar
import Rainier.Scheduler.Schedule
import Rainier.Support.Split
import Rainier.Support.Trace

/-! # Schedules built by chains of calls

A call sets a task's expression, or puts another day of the week into the one it has. One
that cannot be read leaves the task on its expression and records an error, and the next
call that can be read clears it.
-/
namespace Rainier.Scheduler
open Rainier

/-- A task with the error its builders have recorded. -/
structure BuiltTask extends ScheduledTask where
  error : Option String

theorem everyMinute_parses : (CronExpression.parse "* * * * *").toOption.isSome = true := by
  decide

/-- `"HH:MM"`, where what cannot be read is zero and what is too large is cut. -/
def parseTime (time : String) : ℕ × ℕ :=
  let (hour,minute) := match Text.splitOnce ':' time with
    | some (hour,minute) => (Text.parseUInt u32Max (Text.trim hour),Text.parseUInt u32Max (Text.trim minute))
    | none => (Text.parseUInt u32Max (Text.trim time),none)
  (min (hour.getD 0) 23,min (minute.getD 0) 59)

/-- The calls that set all five fields. `every_minute`, `hourly` and their like are `cron` with a text of their own. -/
inductive Setting where
  | cron (expression : String)
  | everyMinutes (n : UInt32)
  | hourlyAt (minute : UInt32)
  | dailyAt (time : String)
  | twiceDaily (first second : UInt32)
  | weeklyOn (day : UInt32) (time : String)
  | monthlyOn (day : UInt32) (time : String)
  deriving DecidableEq

/-- The text of the expression, with times as `read` has them. -/
def Setting.text (read : String → ℕ × ℕ) : Setting → String
  | .cron expression => expression
  | .everyMinutes n => "*/" ++ n.toNat.repr ++ " * * * *"
  | .hourlyAt minute => minute.toNat.repr ++ " * * * *"
  | .dailyAt time => (read time).2.repr ++ " " ++ (read time).1.repr ++ " * * *"
  | .twiceDaily first second => "0 " ++ first.toNat.repr ++ "," ++ second.toNat.repr ++ " * * *"
  | .weeklyOn day time => (read time).2.repr ++ " " ++ (read time).1.repr ++ " * * " ++ day.toNat.repr
  | .monthlyOn day time => (read time).2.repr ++ " " ++ (read time).1.repr ++ " " ++ day.toNat.repr ++ " * *"

inductive Call where
  | set (setting : Setting)
  | onDays (days : String)
  deriving DecidableEq

def Call.weekdays : Call := .onDays "1-5"
def Call.weekends : Call := .onDays "0,6"

def fiveFields (minute hour day month days : String) : String :=
  minute ++ " " ++ hour ++ " " ++ day ++ " " ++ month ++ " " ++ days

namespace BuiltTask

/-- Every minute, until told otherwise. -/
def new (name : String) : BuiltTask where
  name := name
  expression := (CronExpression.parse "* * * * *").toOption.get everyMinute_parses
  timezone := none
  conditional := false
  overlap := none
  oneServer := false
  error := none

/-- The expression is set, or the old one is kept where the new one does not parse. -/
def with_ (t : BuiltTask) (expression : String) : BuiltTask :=
  match CronExpression.parse expression with
  | .ok parsed => { t with expression := parsed, error := none }
  | .error e => { t with error := some e.message }

/-- The source of the expression with another last field, where it has five. -/
def replaced (t : BuiltTask) (days : String) : Option String :=
  match splitWhitespace t.expression.source with
  | [minute,hour,day,month,_] => some (fiveFields minute hour day month days)
  | _ => none

def onDays (t : BuiltTask) (days : String) : BuiltTask :=
  match t.replaced days with
  | some expression => t.with_ expression
  | none => t

def call (t : BuiltTask) : Call → BuiltTask
  | .set setting => t.with_ (setting.text parseTime)
  | .onDays days => t.onDays days

end BuiltTask

/-- `Schedule::errors`. -/
def errors (tasks : List BuiltTask) : List (String × String) :=
  tasks.filterMap fun t => t.error.map fun e => (t.name,e)

/-! ## What a chain describes -/

/-- A time that is H:M, within a day. -/
def readTime (time : String) : Option (ℕ × ℕ) := do
  let (hour,minute) ← Text.splitOnce ':' time
  let hour ← Text.parseUInt u32Max (Text.trim hour)
  let minute ← Text.parseUInt u32Max (Text.trim minute)
  if hour ≤ 23 ∧ minute ≤ 59 then some (hour,minute) else none

def Setting.time : Setting → Option String
  | .dailyAt time | .weeklyOn _ time | .monthlyOn _ time => some time
  | .cron _ | .everyMinutes _ | .hourlyAt _ | .twiceDaily _ _ => none

/-- Its time, if it has one, is a time. -/
def Setting.Timed (s : Setting) : Prop := ∀ time ∈ s.time, (readTime time).isSome = true

def Accepted (expression : String) : Prop := (CronExpression.parse expression).isOk = true

/-- The text a call stands for, unless an argument that gives it several fields is not valid. -/
def Setting.described : Setting → Option String
  | .cron expression => if (CronExpression.parse expression).isOk then some expression else none
  | s => match s.time with
    | none => some (s.text parseTime)
    | some time => (readTime time).map fun clock => s.text fun _ => clock

/-- The last call that sets all fields, and the last day of the week set after it. -/
structure Reading where
  base : Setting
  days : Option String

namespace Reading

def call (r : Reading) : Call → Reading
  | .set setting => ⟨setting,none⟩
  | .onDays days => { r with days := some days }

def text (r : Reading) : Option String :=
  match r.base.described,r.days with
  | none,_ => none
  | some expression,none => some expression
  | some expression,some days =>
    match fieldTexts expression with
    | [minute,hour,day,month,_] => some (fiveFields minute hour day month days)
    | _ => none

/-- The expression a chain describes, unless an argument that is left in it is not valid. -/
def expression (r : Reading) : Option CronExpression := r.text.bind fun text => (CronExpression.parse text).toOption

end Reading

/-- A task in the course of a chain, and what the chain says so far. -/
structure Chain where
  task : BuiltTask
  reading : Reading

namespace Chain

def start (name : String) : Chain := ⟨.new name,⟨.cron "* * * * *",none⟩⟩

def step (s : Chain) (c : Call) : Chain := ⟨s.task.call c,s.reading.call c⟩

def Listed (s : Chain) : Prop := errors [s.task] ≠ []

/-- A chain with an argument that is not valid is listed, and one that is not listed has the expression it describes. -/
def Reported (s : Chain) : Prop :=
  (s.reading.expression = none → s.Listed) ∧ (¬s.Listed → s.reading.expression = some s.task.expression)

/-- A time is a time, unless its call is refused for something else. A day of the week is put
into an expression that the last call before has set and that is written in five fields; after
a call that was refused it is not put anywhere, or refused too, or into the fields the call names. -/
def Calm (s : Chain) : Call → Prop
  | .set setting => setting.Timed ∨ ¬Accepted (setting.text parseTime)
  | .onDays days =>
    match s.task.replaced days with
    | none => ¬Accepted (s.reading.base.text parseTime)
    | some expression => Accepted (s.reading.base.text parseTime) ∨ ¬Accepted expression ∨
        (s.reading.call (.onDays days)).text = some expression

instance (s : Chain) : Decidable s.Listed := inferInstanceAs (Decidable (_ ≠ _))
instance (s : Chain) : Decidable s.Reported := inferInstanceAs (Decidable (_ ∧ _))

end Chain

/-! ## Words -/

section Words

/-- One word of a text. -/
def IsWord (word : String) : Prop := word ≠ "" ∧ ∀ c ∈ word.toList, Text.isWhitespace c = false

theorem isWord_of_mem {s word : String} (h : word ∈ splitWhitespace s) : IsWord word := by
  obtain ⟨cs,hcs,rfl⟩ := List.mem_map.mp h
  obtain ⟨hcs,hne⟩ := List.mem_filter.mp hcs
  refine ⟨fun hempty => of_decide_eq_true hne (String.ofList_eq_empty_iff.mp hempty),fun c hc => ?_⟩
  rw [String.toList_ofList] at hc
  exact Text.not_of_mem_splitOnP hcs c hc

theorem splitWhitespace_append {c : Char} (hc : Text.isWhitespace c = true) (front back : List Char) :
    splitWhitespace (String.ofList (front ++ c :: back)) =
      splitWhitespace (String.ofList front) ++ splitWhitespace (String.ofList back) := by
  simp only [splitWhitespace,String.toList_ofList,List.splitOnP_append_cons front back hc,List.filter_append,List.map_append]

theorem splitWhitespace_empty : splitWhitespace (String.ofList []) = [] := by
  decide

theorem splitWhitespace_word {word : String} (h : IsWord word) : splitWhitespace word = [word] := by
  have hne : word.toList ≠ [] := fun hnil => h.1 (String.toList_eq_nil_iff.mp hnil)
  rw [splitWhitespace,List.splitOnP_eq_singleton h.2]
  simp [hne]

theorem splitWhitespace_before {before : List Char} (h : ∀ c ∈ before, Text.isWhitespace c = true) (cs : List Char) :
    splitWhitespace (String.ofList (before ++ cs)) = splitWhitespace (String.ofList cs) := by
  induction before with
  | nil => rfl
  | cons c before ih =>
    have hsplit := splitWhitespace_append (h c List.mem_cons_self) [] (before ++ cs)
    rw [List.nil_append,splitWhitespace_empty,List.nil_append] at hsplit
    rw [List.cons_append,hsplit,ih fun d hd => h d (List.mem_cons_of_mem c hd)]

theorem splitWhitespace_after {after : List Char} (h : ∀ c ∈ after, Text.isWhitespace c = true) (cs : List Char) :
    splitWhitespace (String.ofList (cs ++ after)) = splitWhitespace (String.ofList cs) := by
  cases after with
  | nil => rw [List.append_nil]
  | cons c after =>
    have hblank := splitWhitespace_before (fun d hd => h d (List.mem_cons_of_mem c hd)) []
    rw [splitWhitespace_empty,List.append_nil] at hblank
    rw [splitWhitespace_append (h c List.mem_cons_self),hblank,List.append_nil]

theorem splitWhitespace_trim (s : String) : splitWhitespace (Text.trim s) = splitWhitespace s := by
  obtain ⟨before,after,hs,hbefore,hafter⟩ := Text.exists_trim s
  have hwords : splitWhitespace (String.ofList s.toList) = splitWhitespace (String.ofList (Text.trim s).toList) := by
    rw [hs,splitWhitespace_after hafter,splitWhitespace_before hbefore]
  rwa [String.ofList_toList,String.ofList_toList,eq_comm] at hwords

theorem splitWhitespace_fiveFields {a b c d : String} (ha : IsWord a) (hb : IsWord b) (hc : IsWord c) (hd : IsWord d)
    (days : String) : splitWhitespace (fiveFields a b c d days) = a :: b :: c :: d :: splitWhitespace days := by
  have hblank : Text.isWhitespace ' ' = true := by decide
  have hspace : ∀ s t : String, splitWhitespace (s ++ " " ++ t) = splitWhitespace s ++ splitWhitespace t := by
    intro s t
    have hsplit := splitWhitespace_append hblank s.toList t.toList
    have htext : String.ofList (s.toList ++ ' ' :: t.toList) = s ++ " " ++ t := by
      apply String.toList_injective
      simp
    rwa [htext,String.ofList_toList,String.ofList_toList] at hsplit
  rw [fiveFields,hspace,hspace,hspace,hspace,splitWhitespace_word ha,splitWhitespace_word hb,splitWhitespace_word hc,
    splitWhitespace_word hd]
  rfl

end Words

/-! ## Accepted expressions -/

section Accepting

/-- A shorthand is one word. -/
theorem not_whitespace_of_shorthand {s : String} {expanded : String} (h : expandShorthand s = some expanded) :
    ∀ c ∈ s.toList, Text.isWhitespace c = false := by
  intro c hc
  by_contra hne
  have hblank : Text.isWhitespace c = true := by simpa using hne
  have hlower : c.toLower = c := by
    refine dif_neg ?_
    rintro ⟨hlo,hhi⟩
    have hlo : 65 ≤ c.toNat := hlo
    have hhi : c.toNat ≤ 90 := hhi
    simp only [Text.isWhitespace,Bool.or_eq_true,Bool.and_eq_true,decide_eq_true_eq,List.contains_eq_mem,List.mem_cons,
      List.not_mem_nil,or_false] at hblank
    omega
  have hmem : c ∈ (toAsciiLowercase s).toList := by
    rw [toAsciiLowercase,String.toList_ofList]
    exact List.mem_map.mpr ⟨c,hc,hlower⟩
  have hname : ∀ name ∈ ["@yearly","@annually","@monthly","@weekly","@daily","@midnight","@hourly"],
      name.toList.all (fun d => !Text.isWhitespace d) = true := by
    decide
  have hshort : toAsciiLowercase s ∈ ["@yearly","@annually","@monthly","@weekly","@daily","@midnight","@hourly"] := by
    unfold expandShorthand at h
    dsimp only at h
    by_contra hnone
    simp only [List.mem_cons,List.not_mem_nil,or_false,not_or] at hnone
    simp [hnone] at h
  have hplain := List.all_eq_true.mp (hname _ hshort) c hmem
  rw [hblank] at hplain
  cases hplain

theorem expandShorthand_of_two {s a b : String} {rest : List String} (h : splitWhitespace s = a :: b :: rest) :
    expandShorthand s = none := by
  cases hshort : expandShorthand s with
  | none => rfl
  | some expanded =>
    by_cases hempty : s = ""
    · have hnil : splitWhitespace "" = [] := splitWhitespace_empty
      rw [hempty,hnil] at h
      cases h
    · rw [splitWhitespace_word ⟨hempty,not_whitespace_of_shorthand hshort⟩] at h
      simp at h

theorem source_of_parse {expression : String} {c : CronExpression} (h : CronExpression.parse expression = .ok c) :
    c.source = Text.trim expression := by
  have hfields : ∀ text, CronExpression.parseFields (Text.trim expression) text = .ok c → c.source = Text.trim expression := by
    intro text htext
    unfold CronExpression.parseFields at htext
    split at htext
    · obtain ⟨minutes,-,htext⟩ := bind_eq_ok.mp htext
      obtain ⟨hours,-,htext⟩ := bind_eq_ok.mp htext
      obtain ⟨days,-,htext⟩ := bind_eq_ok.mp htext
      obtain ⟨months,-,htext⟩ := bind_eq_ok.mp htext
      obtain ⟨weekdays,-,htext⟩ := bind_eq_ok.mp htext
      cases htext
      rfl
    · cases htext
  unfold CronExpression.parse at h
  dsimp only at h
  split at h
  · exact hfields _ h
  · exact hfields _ h

theorem words_of_parse {expression : String} {c : CronExpression} (h : CronExpression.parse expression = .ok c) :
    splitWhitespace c.source = splitWhitespace expression := by
  rw [source_of_parse h,splitWhitespace_trim]

theorem fieldTexts_of_fields {expression a b c d x : String} (h : splitWhitespace expression = [a,b,c,d,x]) :
    fieldTexts expression = [a,b,c,d,x] := by
  rw [← splitWhitespace_trim] at h
  rw [fieldTexts,expandShorthand_of_two h]
  exact h

/-- Five fields put together are five words once they are accepted. -/
theorem words_of_fiveFields {a b c d days : String} {e : CronExpression} (ha : IsWord a) (hb : IsWord b) (hc : IsWord c)
    (hd : IsWord d) (h : CronExpression.parse (fiveFields a b c d days) = .ok e) :
    ∃ x, splitWhitespace e.source = [a,b,c,d,x] := by
  have hwords := splitWhitespace_fiveFields ha hb hc hd days
  rw [← splitWhitespace_trim] at hwords
  have hshort := expandShorthand_of_two hwords
  obtain ⟨minute,hour,day,month,weekday,hreads⟩ := CronExpression.reads_of_parse h
  have htexts := hreads.texts
  rw [fieldTexts,hshort,Option.getD_none,hwords] at htexts
  obtain ⟨rfl,rfl,rfl,rfl,hdays⟩ : a = minute ∧ b = hour ∧ c = day ∧ d = month ∧ splitWhitespace days = [weekday] := by
    simpa using htexts
  exact ⟨weekday,by rw [source_of_parse h,hwords,hdays]⟩

end Accepting

/-! ## Settings -/

section Settings
variable {setting : Setting}

/-- A time is read as it stands. -/
theorem parseTime_of_readTime {time : String} {clock : ℕ × ℕ} (h : readTime time = some clock) : parseTime time = clock := by
  simp only [readTime,Option.bind_eq_bind,Option.bind_eq_some_iff,Prod.exists] at h
  obtain ⟨hourText,minuteText,hsplit,hour,hhour,minute,hminute,h⟩ := h
  split at h
  · next hrange =>
    cases h
    rw [parseTime,hsplit]
    simp only [hhour,hminute,Option.getD_some]
    rw [Nat.min_eq_left hrange.1,Nat.min_eq_left hrange.2]
  · cases h

theorem described_of_timed (htimed : setting.Timed) (h : Accepted (setting.text parseTime)) :
    setting.described = some (setting.text parseTime) := by
  have hclock : ∀ time ∈ setting.time, (readTime time).map (fun clock => setting.text fun _ => clock) =
      some (setting.text fun _ => parseTime time) := by
    intro time htime
    obtain ⟨clock,hread⟩ := Option.isSome_iff_exists.mp (htimed time htime)
    rw [hread,parseTime_of_readTime hread]
    rfl
  cases setting with
  | cron expression =>
    have hok : (CronExpression.parse expression).isOk = true := h
    rw [Setting.described,if_pos hok,Setting.text]
  | everyMinutes n => rfl
  | hourlyAt minute => rfl
  | twiceDaily first second => rfl
  | dailyAt time => exact hclock time rfl
  | weeklyOn day time => exact hclock time rfl
  | monthlyOn day time => exact hclock time rfl

theorem timed_of_described {text : String} (h : setting.described = some text) : setting.Timed := by
  have hclock : ∀ time, (readTime time).map (fun clock => setting.text fun _ => clock) = some text →
      (readTime time).isSome = true := by
    intro time hmap
    obtain ⟨clock,hread,-⟩ := Option.map_eq_some_iff.mp hmap
    rw [hread]
    rfl
  intro time htime
  cases setting with
  | cron expression => cases htime
  | everyMinutes n => cases htime
  | hourlyAt minute => cases htime
  | twiceDaily first second => cases htime
  | dailyAt time' =>
    cases htime
    exact hclock time h
  | weeklyOn day time' =>
    cases htime
    exact hclock time h
  | monthlyOn day time' =>
    cases htime
    exact hclock time h

end Settings

/-! ## One call -/

section Calls
variable {s : Chain}

theorem accepted_iff {expression : String} : Accepted expression ↔ ∃ c, CronExpression.parse expression = .ok c := by
  rw [Accepted]
  cases CronExpression.parse expression with
  | ok c => exact ⟨fun _ => ⟨c,rfl⟩,fun _ => rfl⟩
  | error e =>
    constructor
    · intro h
      cases h
    · rintro ⟨c,h⟩
      cases h

theorem with_of_accepted {expression : String} {c : CronExpression} (h : CronExpression.parse expression = .ok c)
    (t : BuiltTask) : (t.with_ expression).expression = c ∧ (t.with_ expression).error = none := by
  rw [BuiltTask.with_,h]
  exact ⟨rfl,rfl⟩

theorem with_of_refused {expression : String} (h : ¬Accepted expression) (t : BuiltTask) :
    (t.with_ expression).expression = t.expression ∧ (t.with_ expression).error ≠ none := by
  rw [BuiltTask.with_]
  cases hparse : CronExpression.parse expression with
  | ok c => exact absurd (accepted_iff.mpr ⟨c,hparse⟩) h
  | error e => exact ⟨rfl,Option.some_ne_none e.message⟩

theorem replaced_of_fields {t : BuiltTask} {a b c d x : String} (h : splitWhitespace t.expression.source = [a,b,c,d,x])
    (days : String) : t.replaced days = some (fiveFields a b c d days) := by
  rw [BuiltTask.replaced,h]

theorem fields_of_replaced {t : BuiltTask} {days expression : String} (h : t.replaced days = some expression) :
    ∃ a b c d x, splitWhitespace t.expression.source = [a,b,c,d,x] ∧ expression = fiveFields a b c d days := by
  rw [BuiltTask.replaced] at h
  split at h
  · next a b c d x hwords =>
    cases h
    exact ⟨a,b,c,d,x,hwords,rfl⟩
  · cases h

theorem text_of_days {r : Reading} {days text : String} (h : (r.call (.onDays days)).text = some text) :
    ∃ expression a b c d x, r.base.described = some expression ∧ fieldTexts expression = [a,b,c,d,x] ∧
      text = fiveFields a b c d days := by
  simp only [Reading.call,Reading.text] at h
  split at h
  · cases h
  · next heq =>
    cases heq
  · next expression days' hdescribed heq =>
    cases heq
    split at h
    · next a b c d x hfields =>
      cases h
      exact ⟨expression,a,b,c,d,x,hdescribed,hfields,rfl⟩
    · cases h

theorem text_of_fields {r : Reading} {expression a b c d x : String} (h : r.base.described = some expression)
    (hfields : fieldTexts expression = [a,b,c,d,x]) (days : String) :
    (r.call (.onDays days)).text = some (fiveFields a b c d days) := by
  simp only [Reading.call,Reading.text,h,hfields]

theorem listed_iff : s.Listed ↔ s.task.error ≠ none := by
  rw [Chain.Listed,errors]
  cases h : s.task.error <;> simp [h]

theorem reported_iff_expression : s.Reported ↔ (s.task.error = none → s.reading.expression = some s.task.expression) := by
  rw [Chain.Reported,listed_iff,not_not]
  constructor
  · exact fun h => h.2
  · intro h
    refine ⟨fun hnone herror => ?_,h⟩
    rw [h herror] at hnone
    cases hnone

theorem reported_of_error (h : s.task.error ≠ none) : s.Reported :=
  reported_iff_expression.mpr fun hnone => absurd hnone h

namespace Chain

/-- The task's error stands for the last call that sets all fields. -/
def Lost (s : Chain) : Prop := s.task.error ≠ none ∧ ¬Accepted (s.reading.base.text parseTime)

/-- The task has the fields that this call names. -/
structure Held (s : Chain) (text : String) : Prop where
  described : s.reading.base.described = some text
  kept : s.task.error = none → s.reading.expression = some s.task.expression
  fields : ∀ a b c d x, splitWhitespace s.task.expression.source = [a,b,c,d,x] → ∃ y, fieldTexts text = [a,b,c,d,y]
  /-- A shorthand stays as it is. -/
  whole : ∀ days, s.task.replaced days = none → s.task.error = none ∧ Accepted (s.reading.base.text parseTime)

def Inv (s : Chain) : Prop := s.Lost ∨ ∃ text, s.Held text

end Chain

/-! A call that sets all fields. -/

theorem step_set (setting : Setting) : (s.step (.set setting)).task = s.task.with_ (setting.text parseTime) := by
  simp only [Chain.step,BuiltTask.call]

theorem held_of_parse {setting : Setting} {c : CronExpression} (htimed : setting.Timed)
    (h : CronExpression.parse (setting.text parseTime) = .ok c) : (s.step (.set setting)).Held (setting.text parseTime) := by
  obtain ⟨hexpression,herror⟩ := with_of_accepted h s.task
  rw [← step_set] at hexpression herror
  have haccepted : Accepted (setting.text parseTime) := accepted_iff.mpr ⟨c,h⟩
  have hdescribed := described_of_timed htimed haccepted
  refine ⟨hdescribed,fun _ => ?_,?_,fun _ _ => ⟨herror,haccepted⟩⟩
  · have htext : (s.step (.set setting)).reading.text = some (setting.text parseTime) := by
      simp only [Chain.step,Reading.call,Reading.text,hdescribed]
    rw [Reading.expression,htext,Option.bind_some,h,hexpression,Except.toOption]
  · intro a b d e x hwords
    rw [hexpression,words_of_parse h] at hwords
    exact ⟨x,fieldTexts_of_fields hwords⟩

theorem inv_set {setting : Setting} (h : setting.Timed ∨ ¬Accepted (setting.text parseTime)) :
    (s.step (.set setting)).Inv := by
  by_cases haccepted : Accepted (setting.text parseTime)
  · obtain ⟨c,hparse⟩ := accepted_iff.mp haccepted
    exact .inr ⟨_,held_of_parse (h.resolve_right (not_not_intro haccepted)) hparse⟩
  · exact .inl ⟨(with_of_refused haccepted s.task).2,haccepted⟩

theorem reported_set_iff (setting : Setting) :
    (s.step (.set setting)).Reported ↔ setting.Timed ∨ ¬Accepted (setting.text parseTime) := by
  by_cases haccepted : Accepted (setting.text parseTime)
  · obtain ⟨c,hparse⟩ := accepted_iff.mp haccepted
    constructor
    · intro hreported
      have hexpression := reported_iff_expression.mp hreported (with_of_accepted hparse s.task).2
      left
      cases hdescribed : setting.described with
      | none => simp [Chain.step,Reading.call,Reading.expression,Reading.text,hdescribed] at hexpression
      | some text => exact timed_of_described hdescribed
    · intro h
      have hheld := held_of_parse (s := s) (h.resolve_right (not_not_intro haccepted)) hparse
      exact reported_iff_expression.mpr hheld.kept
  · exact iff_of_true (reported_of_error (with_of_refused haccepted s.task).2) (.inr haccepted)

/-! A day of the week. -/

theorem step_days {days expression : String} (h : s.task.replaced days = some expression) :
    (s.step (.onDays days)).task = s.task.with_ expression := by
  simp only [Chain.step,BuiltTask.call,BuiltTask.onDays,h]

theorem step_whole {days : String} (h : s.task.replaced days = none) : (s.step (.onDays days)).task = s.task := by
  simp only [Chain.step,BuiltTask.call,BuiltTask.onDays,h]

theorem areWords {text a b c d x : String} (h : splitWhitespace text = [a,b,c,d,x]) :
    IsWord a ∧ IsWord b ∧ IsWord c ∧ IsWord d := by
  have hword : ∀ w ∈ [a,b,c,d,x], IsWord w := fun w hw => isWord_of_mem (h ▸ hw)
  exact ⟨hword a (by simp),hword b (by simp),hword c (by simp),hword d (by simp)⟩

/-- The chain with the day describes what the call puts together, where that is accepted. -/
theorem expression_of_text {r : Reading} {days expression : String} {c : CronExpression}
    (htext : (r.call (.onDays days)).text = some expression) (h : CronExpression.parse expression = .ok c) :
    (r.call (.onDays days)).expression = some c := by
  rw [Reading.expression,htext,Option.bind_some,h]
  rfl

/-- What a chain with a day describes has five words. -/
theorem words_of_expression {r : Reading} {days : String} {c : CronExpression}
    (h : (r.call (.onDays days)).expression = some c) :
    ∃ expression a b d e x y, r.base.described = some expression ∧ fieldTexts expression = [a,b,d,e,y] ∧
      splitWhitespace c.source = [a,b,d,e,x] ∧ splitWhitespace c.source = a :: b :: d :: e :: splitWhitespace days := by
  obtain ⟨text,htext,hparse⟩ := Option.bind_eq_some_iff.mp h
  obtain ⟨expression,a,b,d,e,y,hdescribed,hfields,rfl⟩ := text_of_days htext
  have hok : CronExpression.parse (fiveFields a b d e days) = .ok c := by
    cases hparsed : CronExpression.parse (fiveFields a b d e days) with
    | ok c' =>
      rw [hparsed] at hparse
      exact congrArg Except.ok (Option.some.inj hparse)
    | error err =>
      rw [hparsed] at hparse
      cases hparse
  obtain ⟨ha,hb,hd,he⟩ := areWords (show splitWhitespace _ = _ from hfields)
  obtain ⟨x,hwords⟩ := words_of_fiveFields ha hb hd he hok
  refine ⟨expression,a,b,d,e,x,y,hdescribed,hfields,hwords,?_⟩
  rw [words_of_parse hok,splitWhitespace_fiveFields ha hb hd he]

theorem held_of_days {days text a b c d x y : String} (hdescribed : s.reading.base.described = some text)
    (hwords : splitWhitespace s.task.expression.source = [a,b,c,d,x]) (hfields : fieldTexts text = [a,b,c,d,y]) :
    (s.step (.onDays days)).Held text := by
  have hreplaced := replaced_of_fields hwords days
  have htext := text_of_fields hdescribed hfields days
  have htask := step_days hreplaced
  obtain ⟨ha,hb,hc,hd⟩ := areWords hwords
  by_cases haccepted : Accepted (fiveFields a b c d days)
  · obtain ⟨e,hparse⟩ := accepted_iff.mp haccepted
    obtain ⟨hexpression,herror⟩ := with_of_accepted hparse s.task
    obtain ⟨x',hsource⟩ := words_of_fiveFields ha hb hc hd hparse
    rw [← htask] at hexpression herror
    rw [← hexpression] at hsource
    refine ⟨hdescribed,fun _ => ?_,?_,fun days' hnone => ?_⟩
    · exact (expression_of_text htext hparse).trans (congrArg some hexpression.symm)
    · intro a' b' c' d' x'' hwords'
      rw [hsource] at hwords'
      cases hwords'
      exact ⟨y,hfields⟩
    · rw [replaced_of_fields hsource] at hnone
      cases hnone
  · obtain ⟨hexpression,herror⟩ := with_of_refused haccepted s.task
    rw [← htask] at hexpression herror
    rw [← hexpression] at hwords
    refine ⟨hdescribed,fun hnone => absurd hnone herror,?_,fun days' hnone => ?_⟩
    · intro a' b' c' d' x' hwords'
      rw [hwords] at hwords'
      cases hwords'
      exact ⟨y,hfields⟩
    · rw [replaced_of_fields hwords] at hnone
      cases hnone

/-- The text put together is the one the chain describes just when the fields are the same. -/
theorem fiveFields_injective {a b c d a' b' c' d' days : String} (ha : IsWord a) (hb : IsWord b) (hc : IsWord c) (hd : IsWord d)
    (ha' : IsWord a') (hb' : IsWord b') (hc' : IsWord c') (hd' : IsWord d')
    (h : fiveFields a b c d days = fiveFields a' b' c' d' days) : a = a' ∧ b = b' ∧ c = c' ∧ d = d' := by
  have hwords := splitWhitespace_fiveFields ha hb hc hd days
  rw [h,splitWhitespace_fiveFields ha' hb' hc' hd'] at hwords
  simp only [List.cons.injEq,and_true] at hwords
  exact ⟨hwords.1.symm,hwords.2.1.symm,hwords.2.2.1.symm,hwords.2.2.2.symm⟩

theorem inv_days (hs : s.Inv) {days : String} (h : s.Calm (.onDays days)) : (s.step (.onDays days)).Inv := by
  cases hreplaced : s.task.replaced days with
  | none =>
    simp only [Chain.Calm,hreplaced] at h
    rcases hs with ⟨herror,-⟩ | ⟨text,hheld⟩
    · exact .inl ⟨by rwa [step_whole hreplaced],h⟩
    · exact absurd (hheld.whole days hreplaced).2 h
  | some expression =>
    simp only [Chain.Calm,hreplaced] at h
    obtain ⟨a,b,c,d,x,hwords,rfl⟩ := fields_of_replaced hreplaced
    rcases hs with ⟨herror,hrefused⟩ | ⟨text,hheld⟩
    · rcases h with h | h | h
      · exact absurd h hrefused
      · exact .inl ⟨by rw [step_days hreplaced]; exact (with_of_refused h s.task).2,hrefused⟩
      · -- the fields of the task are those that the refused call names
        obtain ⟨text,a',b',c',d',y,hdescribed,hfields,hsame⟩ := text_of_days h
        obtain ⟨ha,hb,hc,hd⟩ := areWords hwords
        obtain ⟨ha',hb',hc',hd'⟩ := areWords (show splitWhitespace _ = _ from hfields)
        obtain ⟨rfl,rfl,rfl,rfl⟩ := fiveFields_injective ha hb hc hd ha' hb' hc' hd' hsame
        exact .inr ⟨text,held_of_days hdescribed hwords hfields⟩
    · obtain ⟨y,hfields⟩ := hheld.fields a b c d x hwords
      exact .inr ⟨text,held_of_days hheld.described hwords hfields⟩

theorem reported_days_iff (hs : s.Inv) (days : String) : (s.step (.onDays days)).Reported ↔ s.Calm (.onDays days) := by
  constructor
  · intro hreported
    rw [reported_iff_expression] at hreported
    cases hreplaced : s.task.replaced days with
    | none =>
      simp only [Chain.Calm,hreplaced]
      rw [step_whole hreplaced] at hreported
      rcases hs with ⟨-,hrefused⟩ | ⟨text,hheld⟩
      · exact hrefused
      · -- a shorthand does not have the five words that the chain describes
        obtain ⟨-,a,b,c,d,x,-,-,-,hwords,-⟩ := words_of_expression (hreported (hheld.whole days hreplaced).1)
        rw [replaced_of_fields hwords] at hreplaced
        cases hreplaced
    | some expression =>
      simp only [Chain.Calm,hreplaced]
      obtain ⟨a,b,c,d,x,hwords,rfl⟩ := fields_of_replaced hreplaced
      by_cases haccepted : Accepted (fiveFields a b c d days)
      · obtain ⟨e,hparse⟩ := accepted_iff.mp haccepted
        obtain ⟨hexpression,herror⟩ := with_of_accepted hparse s.task
        rw [← step_days hreplaced] at hexpression herror
        have hsame := hreported herror
        rw [hexpression] at hsame
        obtain ⟨text,a',b',c',d',x',y,hdescribed,hfields,-,hsource⟩ := words_of_expression hsame
        obtain ⟨ha,hb,hc,hd⟩ := areWords hwords
        rw [words_of_parse hparse,splitWhitespace_fiveFields ha hb hc hd] at hsource
        simp only [List.cons.injEq,and_true] at hsource
        obtain ⟨rfl,rfl,rfl,rfl⟩ := hsource
        exact .inr (.inr (text_of_fields hdescribed hfields days))
      · exact .inr (.inl haccepted)
  · intro h
    rcases inv_days hs h with ⟨herror,-⟩ | ⟨text,hheld⟩
    · exact reported_of_error herror
    · exact reported_iff_expression.mpr hheld.kept

end Calls

/-- A new task is as one that was told to run every minute. -/
theorem start_eq_step (name : String) : (Chain.start name).step (.set (.cron "* * * * *")) = Chain.start name := by
  obtain ⟨c,hc⟩ := Option.isSome_iff_exists.mp everyMinute_parses
  have hparse : CronExpression.parse "* * * * *" = .ok c := by
    cases h : CronExpression.parse "* * * * *" with
    | ok c' =>
      rw [h,Except.toOption] at hc
      exact congrArg Except.ok (Option.some.inj hc)
    | error e =>
      rw [h,Except.toOption] at hc
      cases hc
  have hnew : (BuiltTask.new name).expression = c := by
    rw [BuiltTask.new]
    exact Option.get_of_eq_some everyMinute_parses hc
  have htask : (BuiltTask.new name).with_ "* * * * *" = BuiltTask.new name := by
    rw [BuiltTask.with_,hparse]
    simp only
    rw [← hnew]
    rfl
  rw [Chain.step,Chain.start,BuiltTask.call,Setting.text,htask]
  rfl

/-- Every state that a chain of calls passes through is reported just when each of its calls is calm. -/
theorem reported_iff (name : String) (calls : List Call) :
    Trace.Always Chain.step Chain.Reported (.start name) calls ↔ Trace.Along Chain.step Chain.Calm (.start name) calls := by
  have htimed : (Setting.cron "* * * * *").Timed := fun time htime => by cases htime
  have hstart : (Chain.start name).Inv := start_eq_step name ▸ inv_set (.inl htimed)
  have hreported : (Chain.start name).Reported := start_eq_step name ▸ (reported_set_iff _).mpr (.inl htimed)
  have hinv : ∀ s c, Chain.Inv s → Chain.Reported s → s.Calm c → (s.step c).Inv := by
    intro s c hs _ hc
    cases c with
    | set setting => exact inv_set hc
    | onDays days => exact inv_days hs hc
  have hstep : ∀ s c, Chain.Inv s → Chain.Reported s → ((s.step c).Reported ↔ s.Calm c) := by
    intro s c hs _
    cases c with
    | set setting => exact reported_set_iff setting
    | onDays days => exact reported_days_iff hs days
  exact Trace.always_iff_along hinv hstep hstart hreported

/-- An expression that cannot be read, and then weekdays: nothing is recorded, and the task runs every minute of them. -/
theorem weekdays_clear_error : ¬(Trace.run Chain.step (.start "prune") [.set (.cron "61 * * * *"),Call.weekdays]).Reported := by
  decide

end Rainier.Scheduler
