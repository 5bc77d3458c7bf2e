import Linewise.Trace
import Linewise.Proofs.Pending

/-! The log of an episode has an event for every byte of the text, in order, and a report behind
every line that was judged; each byte is met in the context that the one before it left (`Links`),
but that a line comment has ended at the start of a line. -/

namespace Linewise

/-- Each byte is met in the context that the byte before it left, the first one in the given context. Behind
the report on a line, the line comment at its end is over. -/
inductive Links : Context → List Event → Context → Prop where
  | nil {c : Context} : Links c [] c
  | sighting {s : Sighting} {events : List Event} {d : Context}
      (rest : Links s.after.context events d) : Links s.before (.sighting s :: events) d
  | report {r : Report} {events : List Event} {c d : Context}
      (rest : Links c.atLineEnd events d) : Links c (.report r :: events) d

theorem Links.append {c d e : Context} {events more : List Event} (first : Links c events d)
    (second : Links d more e) : Links c (events ++ more) e := by
  induction first with
  | nil => exact second
  | sighting _ ih => exact .sighting (ih second)
  | report _ ih => exact .report (ih second)

/-- The events of a line that was judged: its bytes and a report. -/
structure LineLog where
  seen : List Sighting
  report : Report

namespace LineLog

def events (l : LineLog) : List Event := l.seen.map Event.sighting ++ [.report l.report]

def Covers (line : List UInt8) (l : LineLog) : Prop :=
  l.seen.map Sighting.byte = (Separator.replace line).bytes

end LineLog

/-- With the byte, the code begins. -/
def Sighting.announces (s : Sighting) : Bool := s.after.codeStart == some s.offset

namespace Entry

/-- The byte at the offset is no slash and no hash sign, so its meaning does not wait for the next. -/
def decidedAt (e : Entry) (offset : Nat) : Bool :=
  e.text[offset]? != some Byte.slash && e.text[offset]? != some Byte.hash

/-- Where the code begins, if it begins with a decided byte. -/
def announced (e : Entry) : Option Nat := e.start.filter e.decidedAt

theorem announced_of_start {e : Entry} {start : Nat} (begins : e.start = some start) :
    e.announced = if e.decidedAt start then some start else none := by
  rw [announced, begins, Option.filter_some]

theorem announced_of_blank {e : Entry} (blank : e.start = none) : e.announced = none := by
  rw [announced, blank, Option.filter_none]

end Entry

namespace Scan

variable {s t : Scan} {byte : UInt8} {effect : Effect} {bytes : List UInt8}
  {seen later : List Sighting}

theorem Accepts.links (accepted : Accepts s bytes seen t) :
    Links s.context (seen.map Event.sighting) t.context := by
  induction accepted with
  | nil => exact .nil
  | @cons s t byte effect bytes seen one _ ih => exact .sighting (s := s.sighting byte effect) ih

/-! ## The first byte of code -/

/-- Only a byte of code that was decided at once was seen as the first. -/
def Announced (s : Scan) (seen : List Sighting) : Prop :=
  (seen.filter Sighting.announces).map Sighting.offset = s.entry.announced.toList

theorem announced_empty : Announced {} [] := rfl

theorem Announced.of_entry (told : s.Announced seen) (same : t.entry = s.entry) : t.Announced seen := by
  rwa [Announced, same]

theorem getElem?_apply_cases (sound : s.Sound) (accepted : s.effect byte = .ok effect) {offset : Nat}
    (inside : offset < s.text.size) :
    (s.apply byte effect).text[offset]? = s.text[offset]? ∨
      s.text[offset]? = some Byte.hash ∧ (s.apply byte effect).text[offset]? = some Byte.slash := by
  by_cases shebang : effect.shebang = true
  · obtain ⟨hash, -⟩ := back?_of_shebang sound accepted shebang
    obtain ⟨front, text⟩ := Array.back?_eq_some_iff.mp hash
    rw [text_apply_of_shebang shebang, text, Array.pop_push]
    rw [text, Array.size_push] at inside
    have short : offset ≠ (front.push Byte.slash).size := by
      rw [Array.size_push]
      exact Nat.ne_of_lt inside
    rw [Array.getElem?_push, if_neg short]
    rcases Nat.lt_or_eq_of_le (Nat.le_of_lt_succ inside) with before | rfl
    · left
      rw [Array.getElem?_push_lt before, Array.getElem?_push_lt before]
    · exact .inr ⟨Array.getElem?_push_size, Array.getElem?_push_size⟩
  · left
    rw [text_apply_of_not_shebang (by simpa using shebang), Array.getElem?_push_lt inside,
      Array.getElem?_eq_getElem inside]

/-- A slash and a hash sign stay undecided, also where they become the slashes of a comment. -/
theorem decidedAt_apply (sound : s.Sound) (accepted : s.effect byte = .ok effect) {offset : Nat}
    (inside : offset < s.text.size) :
    (s.apply byte effect).entry.decidedAt offset = s.entry.decidedAt offset := by
  simp only [Entry.decidedAt, entry]
  rcases getElem?_apply_cases sound accepted inside with same | ⟨hash, slash⟩
  · rw [same]
  · rw [hash, slash]
    decide

theorem announced_of_blank (blank : s.extent = none) : s.entry.announced = none :=
  Entry.announced_of_blank (by rw [entry, Status.codeStart, blank, Option.map_none])

theorem announces_iff :
    (s.sighting byte effect).announces = true ↔ (s.apply byte effect).codeStart = some s.text.size := by
  simp [Sighting.announces, sighting, apply]

theorem announced_apply_of_code (sound : s.Sound) (accepted : s.effect byte = .ok effect)
    {extent : Extent} (marked : s.extent = some extent) :
    (s.sighting byte effect).announces = false ∧
      (s.apply byte effect).entry.announced = s.entry.announced := by
  have inside := (sound.marks extent marked).2.1.lt
  have before : s.codeStart = some extent.first := by rw [Status.codeStart, marked, Option.map_some]
  have start : (s.apply byte effect).codeStart = some extent.first := by
    simp only [Status.codeStart, apply, Status.after, marked]
    cases effect.deferred <;> cases effect.counts <;> rfl
  constructor
  · refine Bool.eq_false_iff.mpr fun announces => ?_
    have here := Option.some.inj (start.symm.trans (announces_iff.mp announces))
    omega
  · rw [Entry.announced_of_start start, Entry.announced_of_start before,
      decidedAt_apply sound accepted inside]

/-- The first code may be an undecided byte. It is not announced, then. -/
theorem announced_apply_of_deferred (sound : s.Sound) (accepted : s.effect byte = .ok effect)
    (blank : s.extent = none) (deferred : effect.deferred = true) :
    (s.sighting byte effect).announces = false ∧
      (s.apply byte effect).entry.announced = s.entry.announced := by
  have undecided := Context.undecided_of_deferred (effect_eq_ok_iff.mp accepted) deferred
  have inside := (filled_of_undecided sound undecided).lt
  have start : (s.apply byte effect).codeStart = some (s.text.size - 1) := by
    simp only [Status.codeStart, apply, Status.after, blank, deferred]
    cases effect.counts <;> rfl
  have waiting : s.entry.decidedAt (s.text.size - 1) = false := by
    simp only [Entry.decidedAt, entry, ← Array.back?_eq_getElem?]
    rcases undecided with slash | hash
    · rw [sound.slash slash]
      decide
    · rw [sound.hash hash]
      decide
  constructor
  · refine Bool.eq_false_iff.mpr fun announces => ?_
    have here := Option.some.inj (start.symm.trans (announces_iff.mp announces))
    omega
  · rw [Entry.announced_of_start start, decidedAt_apply sound accepted inside, waiting,
      announced_of_blank blank]
    rfl

theorem announced_apply_of_counts (sound : s.Sound) (accepted : s.effect byte = .ok effect)
    (blank : s.extent = none) (undeferred : effect.deferred = false) (counts : effect.counts = true) :
    (s.sighting byte effect).announces = true ∧
      (s.apply byte effect).entry.announced = some s.text.size := by
  have entry' := effect_eq_ok_iff.mp accepted
  have code := Context.code_of_counts entry' (sound.blank blank).2.2 counts undeferred
  rw [code] at entry'
  obtain ⟨slash, hash, plain⟩ := Context.decided_of_counts entry' counts
  have start : (s.apply byte effect).codeStart = some s.text.size := by
    simp [Status.codeStart, apply, Status.after, blank, undeferred, counts, Extent.mark]
  refine ⟨announces_iff.mpr start, ?_⟩
  have here : (s.apply byte effect).text[s.text.size]? = some byte := by
    rw [text_apply_of_not_shebang plain, Array.getElem?_push_size]
  have decided : (s.apply byte effect).entry.decidedAt s.text.size = true := by
    have other : byte ≠ Byte.slash := mt Role.ofByte_eq_slash_iff.mpr slash
    have other' : byte ≠ Byte.hash := mt Role.ofByte_eq_hash_iff.mpr hash
    simp [Entry.decidedAt, entry, here, other, other']
  rw [Entry.announced_of_start start, decided, if_pos rfl]

theorem announced_apply_of_blank (blank : (s.apply byte effect).extent = none) :
    (s.sighting byte effect).announces = false ∧
      (s.apply byte effect).entry.announced = s.entry.announced := by
  constructor
  · refine Bool.eq_false_iff.mpr fun announces => ?_
    have start := announces_iff.mp announces
    rw [Status.codeStart, blank] at start
    cases start
  · rw [announced_of_blank blank, announced_of_blank (uncounted_of_unmarked blank).1]

theorem announced_apply (sound : s.Sound) (accepted : s.effect byte = .ok effect) :
    (s.apply byte effect).entry.announced.toList =
      s.entry.announced.toList ++
        if (s.sighting byte effect).announces then [s.text.size] else [] := by
  have silent (quiet : (s.sighting byte effect).announces = false ∧
      (s.apply byte effect).entry.announced = s.entry.announced) :
      (s.apply byte effect).entry.announced.toList = s.entry.announced.toList ++
        if (s.sighting byte effect).announces then [s.text.size] else [] := by
    rw [quiet.1, quiet.2]
    exact (List.append_nil _).symm
  cases marked : s.extent with
  | some extent => exact silent (announced_apply_of_code sound accepted marked)
  | none =>
    cases late : effect.deferred with
    | true => exact silent (announced_apply_of_deferred sound accepted marked late)
    | false =>
      cases counts : effect.counts with
      | true =>
        obtain ⟨announces, here⟩ := announced_apply_of_counts sound accepted marked late counts
        rw [announces, here, announced_of_blank marked]
        rfl
      | false => exact silent (announced_apply_of_blank (by simp [apply, Status.after, marked, late, counts]))

theorem Announced.apply (told : s.Announced seen) (sound : s.Sound)
    (accepted : s.effect byte = .ok effect) :
    (s.apply byte effect).Announced (seen ++ [s.sighting byte effect]) := by
  rw [Announced, announced_apply sound accepted, ← told, List.filter_append, List.map_append,
    List.filter_singleton]
  cases (s.sighting byte effect).announces <;> rfl

theorem Announced.accepts (told : s.Announced seen) (sound : s.Sound)
    (accepted : Accepts s bytes later t) : t.Announced (seen ++ later) := by
  induction accepted generalizing seen with
  | nil => simpa using told
  | cons one _ ih => simpa using ih (told.apply sound one) (sound.apply one)

theorem Announced.record (told : s.Announced seen) (sound : s.Sound) (byte : UInt8) :
    (s.record byte).Announced seen := by
  rw [Announced, told]
  cases marked : s.extent with
  | none => rw [announced_of_blank marked, announced_of_blank (s := s.record byte) marked]
  | some extent =>
    have inside := (sound.marks extent marked).2.1.lt
    have start : s.codeStart = some extent.first := by rw [Status.codeStart, marked, Option.map_some]
    have same : (s.text.push byte)[extent.first]? = s.text[extent.first]? := by
      rw [Array.getElem?_push_lt inside, Array.getElem?_eq_getElem inside]
    have decided : (s.record byte).entry.decidedAt extent.first = s.entry.decidedAt extent.first := by
      simp only [Entry.decidedAt, entry, Scan.record, same]
    rw [Entry.announced_of_start (e := s.entry) start,
      Entry.announced_of_start (e := (s.record byte).entry) start, decided]

end Scan

/-! ## Records -/

namespace Trace

def Unannounced (records : List Record) : Prop := ∀ offset, .firstToken offset ∉ records

/-- The records tell of a first code byte once, right behind the record of the byte itself, or never. -/
def Announces (records : List Record) : Option Nat → Prop
  | none => Unannounced records
  | some start => ∃ front back byte before after depth expecting,
      records = front ++ .scannedByte start byte before after depth expecting :: .firstToken start :: back ∧
        Unannounced front ∧ Unannounced back

variable {events : List Event} {log : Array Event} {s : Sighting}

def start? (e : Event) : Option Sighting := e.sighting?.filter Sighting.announces

theorem unannounced_ofEvent {e : Event} (silent : start? e = none) : Unannounced (ofEvent e) := by
  intro offset told
  cases e with
  | report r => simp [ofEvent] at told
  | sighting s =>
    have quiet : s.announces = false := by simpa [start?, Event.sighting?] using silent
    have plain : ¬ s.after.codeStart = some s.offset := by simpa [Sighting.announces] using quiet
    simp [ofEvent, ofSighting, plain] at told

theorem unannounced_of_silent (silent : ∀ e ∈ events, start? e = none) :
    Unannounced (events.flatMap ofEvent) := by
  intro offset told
  obtain ⟨e, listed, told⟩ := List.mem_flatMap.mp told
  exact unannounced_ofEvent (silent e listed) offset told

theorem ofEvent_of_start {e : Event} (starts : start? e = some s) :
    ofEvent e = [.scannedByte s.offset (Byte.escaped s.byte) s.before s.after.context s.after.depth
      s.after.expecting, .firstToken s.offset] := by
  cases e with
  | report r => cases starts
  | sighting s =>
    obtain ⟨same, announces⟩ := Option.filter_eq_some_iff.mp starts
    cases same
    rw [ofEvent, ofSighting, if_pos (beq_iff_eq.mp announces)]

theorem announces_ofLog {start : Option Nat}
    (told : ((sightingsOf log).filter Sighting.announces).map Sighting.offset = start.toList) :
    Announces (ofLog log) start := by
  rw [sightingsOf, List.filter_filterMap] at told
  cases start with
  | none => exact unannounced_of_silent (List.filterMap_eq_nil_iff.mp (List.map_eq_nil_iff.mp told))
  | some start =>
    obtain ⟨s, listed, rfl⟩ := List.map_eq_singleton_iff.mp told
    obtain ⟨front, e, back, events, silent, starts, rest⟩ := List.filterMap_eq_cons_iff.mp listed
    refine ⟨front.flatMap ofEvent, back.flatMap ofEvent, Byte.escaped s.byte, s.before, s.after.context,
      s.after.depth, s.after.expecting, ?_, unannounced_of_silent silent,
      unannounced_of_silent (List.filterMap_eq_nil_iff.mp rest)⟩
    rw [ofLog, events, List.flatMap_append, List.flatMap_cons, ofEvent_of_start starts]
    rfl

end Trace

/-! ## Lines -/

/-- The given lines were judged: none of them completes the unit, but the last one does if the episode did
not fail. -/
def Reading.Judges (r : Reading) (lines : List LineLog) : Prop :=
  ∃ opened completed, lines = opened ++ completed ∧ (∀ l ∈ opened, l.report.judgement ≠ .complete) ∧
    completed.map (fun l => l.report.judgement) = if r.failure.isNone then [.complete] else []

/-- What an episode does with its input, by its log. It takes the lines that were judged, and at most one
more, which was refused at a byte or has no newline; these account for its text. The log consists of the
lines that were judged and of what was seen behind them. -/
structure Reading.Observed (r : Reading) (input : Input) (judged rest : List (List UInt8))
    (lines : List LineLog) (last : List Sighting) : Prop where
  taken : input.physicalLines = judged ++ rest ++ r.input.physicalLines
  single : rest.length ≤ 1
  unjudged : ∀ line ∈ rest, r.refused ≠ [] ∨
    input.tail = .rest line ∧ ∃ depth, r.failure = some (.atEnd depth)
  accounts : r.Accounts (judged ++ rest)
  events : r.log.toList = lines.flatMap LineLog.events ++ last.map Event.sighting
  bytes : List.Forall₂ LineLog.Covers judged lines
  judges : r.Judges lines
  links : ∃ context, Links .code r.log.toList context
  announced : r.scan.Announced r.sightings

theorem Reading.Accounts.size {r : Reading} {taken : List (List UInt8)} (accounts : r.Accounts taken) :
    r.scan.text.size = r.sightings.length + r.refused.length := by
  have length := accounts.text.length_eq
  rwa [Array.length_toList, Reading.source, List.length_append, List.length_map] at length

namespace Policy

variable {p : Policy} {scan t : Scan} {done bodies : List (List UInt8)} {body bytes : List UInt8}
  {lines : List LineLog} {log : Array Event} {seen : List Sighting} {input : Input} {r : Reading}

theorem judges_of_failed (more : ∀ l ∈ lines, l.report.judgement ≠ .complete) {cause : Cause}
    (failed : r.failure = some cause) : r.Judges lines :=
  ⟨lines, [], (List.append_nil lines).symm, more, by rw [failed]; rfl⟩

/-- The log of an unfinished episode, of which all lines were judged. -/
structure Logged (done : List (List UInt8)) (lines : List LineLog) (scan : Scan) (log : Array Event) :
    Prop where
  recorded : Recorded done scan log
  events : log.toList = lines.flatMap LineLog.events
  bytes : List.Forall₂ LineLog.Covers (done.map Input.terminated) lines
  links : Links .code log.toList scan.context
  announced : scan.Announced (sightingsOf log)

theorem Logged.announced_accepts (logged : Logged done lines scan log)
    (accepted : Scan.Accepts { scan with lineStart := scan.text.size } bytes seen t) :
    t.Announced (sightingsOf log ++ seen) := by
  have started : Scan.Announced { scan with lineStart := scan.text.size } (sightingsOf log) :=
    logged.announced
  exact started.accepts logged.recorded.sound.startLine accepted

theorem Logged.links_accepts (logged : Logged done lines scan log)
    (accepted : Scan.Accepts { scan with lineStart := scan.text.size } bytes seen t) :
    Links .code (log ++ seen.map Event.sighting).toList t.context := by
  rw [Array.toList_appendList]
  exact logged.links.append accepted.links

theorem logged_empty : Logged [] [] {} #[] := ⟨recorded_empty, rfl, .nil, .nil, Scan.announced_empty⟩

theorem context_reopen (accepted : Scan.Accepts { scan with lineStart := scan.text.size }
      (Separator.replace (Input.terminated body)).bytes seen t) (p : Policy) :
    (p.reopen t).context = t.context.atLineEnd :=
  (Scan.crossesLine_of_terminated accepted).atLineStart

theorem Logged.next (logged : Logged done lines scan log)
    (accepted : Scan.Accepts { scan with lineStart := scan.text.size }
      (Separator.replace (Input.terminated body)).bytes seen t) (p : Policy) :
    Logged (done ++ [body]) (lines ++ [⟨seen, p.report t.closeLine⟩]) (p.reopen t)
      (log ++ (p.judge seen t.closeLine).events) where
  recorded := logged.recorded.next accepted p
  events := by
    rw [Array.toList_appendList, logged.events, List.flatMap_append, List.flatMap_singleton]
    rfl
  bytes := by
    rw [List.map_append]
    exact List.rel_append logged.bytes (.cons accepted.map_byte .nil)
  links := by
    have line : Links scan.context (p.judge seen t.closeLine).events (p.reopen t).context := by
      rw [context_reopen accepted]
      exact accepted.links.append (.report .nil)
    rw [Array.toList_appendList]
    exact logged.links.append line
  announced := by
    have told : t.Announced (sightingsOf log ++ seen) := logged.announced_accepts accepted
    rw [sightingsOf_judge]
    exact told

theorem physicalLines_of_lines (read : input.lines = done ++ bodies) :
    input.physicalLines = done.map Input.terminated ++ Input.physicalLines ⟨bodies, input.tail⟩ := by
  simp [Input.physicalLines, read]

/-! ## The ends of an episode -/

theorem Logged.observed (logged : Logged done lines scan log) (judges : r.Judges lines)
    (ended : r.failure = none ∨ ∃ outage, r.failure = some (.outage outage))
    (entry : r.entry = scan.entry) (log' : r.log = log)
    (left : input.physicalLines = done.map Input.terminated ++ r.input.physicalLines) :
    r.Observed input (done.map Input.terminated) [] lines [] where
  taken := by rw [List.append_nil, left]
  single := Nat.zero_le 1
  unjudged := List.forall_mem_nil _
  accounts := by
    have text : r.scan.text = scan.text := congrArg Entry.text entry
    have clean : ∀ i, r.failure ≠ some (.intrusion i) := by
      rcases ended with complete | ⟨outage, failed⟩
      · simp [complete]
      · simp [failed]
    subst log'
    rw [List.append_nil]
    refine Reading.accounts_of_told ⟨?_, ?_⟩ logged.recorded.all clean
    · rw [text]; exact logged.recorded.told.offsets
    · rw [text]; exact logged.recorded.told.text
  events := by rw [log', logged.events]; exact (List.append_nil _).symm
  bytes := logged.bytes
  judges := judges
  links := ⟨scan.context, log' ▸ logged.links⟩
  announced := by
    subst log'
    exact logged.announced.of_entry entry

theorem Logged.observed_accepted (logged : Logged done lines scan log)
    (more : ∀ l ∈ lines, l.report.judgement ≠ .complete)
    (accepted : Scan.Accepts { scan with lineStart := scan.text.size }
      (Separator.replace bytes).bytes seen t)
    (read : input.lines = done) (tail : input.tail = .rest bytes) (entry : r.entry = t.entry)
    (failed : r.failure = some (.atEnd t.depth)) (left : r.input.physicalLines = [])
    (log' : r.log = log ++ seen.map Event.sighting) :
    r.Observed input (done.map Input.terminated) (if bytes = [] then [] else [bytes]) lines seen where
  taken := by
    rw [left, List.append_nil, Input.physicalLines, read, tail]
    split <;> simp_all
  single := by split <;> simp
  unjudged := by
    intro line listed
    split at listed
    · cases listed
    · obtain rfl := List.mem_singleton.mp listed
      exact .inr ⟨tail, t.depth, failed⟩
  accounts := by
    refine logged.recorded.accounts_accepted accepted (congrArg Entry.text entry) ?_ ?_ ?_
    · rw [Reading.sightings, log', sightingsOf_seen]
    · rw [failed]
      exact fun i same => Cause.atEnd_ne_intrusion _ i (Option.some.inj same)
    · split <;> simp_all
  events := by rw [log', Array.toList_appendList, logged.events]
  bytes := logged.bytes
  judges := judges_of_failed more failed
  links := ⟨t.context, log' ▸ logged.links_accepts accepted⟩
  announced := by
    rw [Reading.sightings, log', sightingsOf_seen]
    exact (logged.announced_accepts accepted).of_entry entry

theorem Logged.observed_refused {line front back : List UInt8} {byte : UInt8} {intrusion : Intrusion}
    (logged : Logged done lines scan log) (more : ∀ l ∈ lines, l.report.judgement ≠ .complete)
    (spelled : (Separator.replace line).bytes = front ++ byte :: back)
    (accepted : Scan.Accepts { scan with lineStart := scan.text.size } front seen t)
    (refused : t.effect byte = .error intrusion) (scan' : r.scan = t.record byte)
    (failed : r.failure = some (.intrusion intrusion)) (log' : r.log = log ++ seen.map Event.sighting)
    (left : input.physicalLines = done.map Input.terminated ++ line :: r.input.physicalLines) :
    r.Observed input (done.map Input.terminated) [line] lines seen where
  taken := by rw [left, List.append_assoc]; rfl
  single := Nat.le_refl 1
  unjudged := fun _ _ => .inl (by simp [Reading.refused, failed])
  accounts := by
    refine logged.recorded.accounts_refused accepted refused spelled scan' ?_ failed
    rw [Reading.sightings, log', sightingsOf_seen]
  events := by rw [log', Array.toList_appendList, logged.events]
  bytes := logged.bytes
  judges := judges_of_failed more failed
  links := ⟨t.context, log' ▸ logged.links_accepts accepted⟩
  announced := by
    rw [Reading.sightings, log', sightingsOf_seen, scan']
    exact (logged.announced_accepts accepted).record
      (logged.recorded.sound.startLine.accepts accepted) byte

theorem finish_observed (logged : Logged done lines scan log)
    (more : ∀ l ∈ lines, l.report.judgement ≠ .complete) (read : input.lines = done) (sink : Sink) :
    ∃ judged rest lines last,
      (finish input.tail scan sink log).Observed input judged rest lines last := by
  have front := physicalLines_of_lines (read.trans (List.append_nil done).symm)
  cases tail : input.tail with
  | cut outage =>
    refine ⟨_, _, _, _, logged.observed (judges_of_failed more rfl) (.inr ⟨outage, rfl⟩) rfl rfl ?_⟩
    rw [front, tail]
    rfl
  | rest bytes =>
    rcases finish_cases bytes scan sink log with ⟨seen, t, accepted, ended⟩ |
      ⟨part, byte, back, seen, t, intrusion, spelled, accepted, refused, stopped⟩
    · rw [ended]
      exact ⟨_, _, _, _, logged.observed_accepted more accepted read tail rfl rfl
        (Input.physicalLines_spent _) rfl⟩
    · rw [stopped]
      refine ⟨_, _, _, _, logged.observed_refused more spelled accepted refused rfl rfl rfl ?_⟩
      have occupied : bytes ≠ [] := by
        rintro rfl
        simp at spelled
      rw [front, tail, Input.physicalLines_spent]
      cases bytes with
      | nil => contradiction
      | cons => rfl

theorem follow_observed (p : Policy) (logged : Logged done lines scan log)
    (more : ∀ l ∈ lines, l.report.judgement ≠ .complete) (read : input.lines = done ++ bodies)
    (sink : Sink) :
    ∃ judged rest lines last,
      (p.follow input.tail bodies scan sink log).Observed input judged rest lines last := by
  induction bodies generalizing done lines scan sink log with
  | nil => exact finish_observed logged more (read.trans (List.append_nil done)) sink
  | cons body bodies ih =>
    have front := physicalLines_of_lines read
    rcases line_cases p scan body with ⟨seen, t, accepted, judged⟩ |
      ⟨part, byte, back, seen, t, intrusion, spelled, accepted, refused, stopped⟩
    · have next := logged.next accepted p
      have behind : input.lines = (done ++ [body]) ++ bodies := by
        rw [read, List.append_assoc, List.singleton_append]
      have front' := physicalLines_of_lines behind
      by_cases complete : t.closeLine.judgement p.settings p.vocabulary = .complete
      · rw [follow_completed judged complete]
        refine ⟨_, _, _, _, next.observed ⟨lines, [_], rfl, more, ?_⟩ (.inl rfl) rfl rfl front'⟩
        exact congrArg (fun judgement => [judgement]) complete
      · have more' : ∀ l ∈ lines ++ [⟨seen, p.report t.closeLine⟩], l.report.judgement ≠ .complete := by
          intro l listed
          rcases List.mem_append.mp listed with before | last
          · exact more l before
          · obtain rfl := List.mem_singleton.mp last
            exact complete
        rw [follow_judged judged complete, judged]
        cases asked : p.prompting (Dots.deliver (p.reopen t).depth) sink with
        | ok _ sink => exact ih next more' behind sink
        -- the report is in the log already, whatever becomes of the dots
        | error outage sink =>
          exact ⟨_, _, _, _, next.observed (judges_of_failed more' rfl) (.inr ⟨outage, rfl⟩) rfl rfl
            front'⟩
    · rw [follow_refused (by rw [stopped]), stopped]
      exact ⟨_, _, _, _, logged.observed_refused more spelled accepted refused rfl rfl rfl front⟩

/-- The log of an episode is complete, however it ends. The bytes that were seen have the offsets from zero on,
one for every byte of the text but a refused one, and are those of the lines that were taken, before a
shebang was rewritten. Every line that was judged has one report, behind its bytes. The first byte of code
is announced once, right behind its record, if it is neither a slash nor a hash sign, and never if it is,
or if there is no code. -/
theorem read_observed (p : Policy) (prompt : List UInt8) (sink : Sink) (input : Input) :
    let r := p.read prompt sink input
    (∃ judged rest lines last, r.Observed input judged rest lines last) ∧
      r.sightings.map Sighting.offset = List.range r.sightings.length ∧
      r.scan.text.size = r.sightings.length + r.refused.length ∧
      Trace.Announces (Trace.ofLog r.log) r.entry.announced := by
  intro r
  have observed : ∃ judged rest lines last, r.Observed input judged rest lines last := by
    cases asked : p.prompting (Sink.deliver prompt) sink with
    | ok _ next =>
      have reads : r = p.follow input.tail input.lines {} next #[] := by simp only [r, read, asked]
      rw [reads]
      exact follow_observed p logged_empty (List.forall_mem_nil _) rfl next
    | error outage next =>
      have reads : r =
          { scan := {}, failure := some (.outage outage), input, sink := next, log := #[] } := by
        simp only [r, read, asked]
      rw [reads]
      exact ⟨_, _, _, _, logged_empty.observed (judges_of_failed (List.forall_mem_nil _) rfl)
        (.inr ⟨outage, rfl⟩) rfl rfl rfl⟩
  obtain ⟨judged, rest, lines, last, whole⟩ := observed
  exact ⟨⟨judged, rest, lines, last, whole⟩, whole.accounts.offsets, whole.accounts.size,
    Trace.announces_ofLog whole.announced⟩

/-- A slash that divides is the first byte of code, but it is not announced. -/
example : let r := read {} [] {} (.ofBytes "/1\n".toUTF8.toList none)
    r.entry.start = some 0 ∧ r.entry.announced = none := by
  decide +kernel

end Policy

end Linewise
