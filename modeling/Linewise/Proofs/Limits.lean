import Linewise.Proofs.Completion

/-! If all that an episode shows at a sink without limits (`Policy.shown`) fits a sink with limits,
the episode is the same there. If not, it breaks off at the limit, with the lines it has read by
then (`Policy.read_limited`). -/

namespace Linewise

/-! ## Rows of dots -/

namespace Sink

theorem write_bind_write (front back : List UInt8) :
    (do write front; write back) = write (front ++ back) := by
  funext sink
  have join (mid : List UInt8) : sink.taken ++ front ++ mid = sink.taken ++ (front ++ mid) := by
    apply Array.ext'
    simp
  cases space : sink.room with
  | none => simp only [bind, EStateM.bind, write, space, join]
  | some room =>
    by_cases fits : front.length ≤ room
    · have whole : front.take room = front := List.take_of_length_le fits
      have most : (front ++ back).take room = front ++ back.take (room - front.length) := by
        rw [List.take_append, whole]
      have rest : back.length ≤ room - front.length ↔ (front ++ back).length ≤ room := by
        rw [List.length_append]
        omega
      have left : room - front.length - back.length = room - (front ++ back).length := by
        rw [List.length_append]
        omega
      simp only [bind, EStateM.bind, write, space, if_pos fits, whole, most, rest, left, join]
    · have part : (front ++ back).take room = front.take room :=
        List.take_append_of_le_length (by omega)
      have exceeds : ¬ (front ++ back).length ≤ room := by
        rw [List.length_append]
        omega
      have spent : room - front.length = room - (front ++ back).length := by
        rw [List.length_append]
        omega
      simp only [bind, EStateM.bind, write, space, if_neg fits, if_neg exceeds, part, spent]

end Sink

namespace Dots

def row (columns : Nat) : List UInt8 :=
  (List.replicate (columns / block.length) block).flatten ++ block.take (columns % block.length)

theorem writeBlocks_eq (count : Nat) (bytes : List UInt8) :
    (do writeBlocks count; Sink.write bytes) =
      Sink.write ((List.replicate count block).flatten ++ bytes) := by
  induction count with
  | zero => rfl
  | succ count ih =>
    simp only [writeBlocks, bind_assoc, ih, Sink.write_bind_write]
    simp [List.replicate_succ]

theorem write_eq (columns : Nat) : write columns = Sink.write (row columns) :=
  writeBlocks_eq _ _

theorem deliver_eq (depth : Nat) : deliver depth = Sink.deliver (row (width depth)) := by
  rw [deliver, write_eq, Sink.deliver]

end Dots

/-! ## What a sink holds -/

namespace Sink

variable {sink : Sink} {bytes : List UInt8} {shown : List (List UInt8)}

def unlimited (sink : Sink) : Sink := { sink with room := none, flushes := none }

/-- All of what is shown, piece by piece, is within the limits. -/
structure Holds (sink : Sink) (shown : List (List UInt8)) : Prop where
  room : ∀ room ∈ sink.room, shown.flatten.length ≤ room
  flushes : ∀ count ∈ sink.flushes, shown.length ≤ count

/-- The first `count` pieces are within the limits, and the next is not. -/
structure BreaksAt (sink : Sink) (shown : List (List UInt8)) (count : Nat) : Prop where
  held : sink.Holds (shown.take count)
  broken : ¬ sink.Holds (shown.take (count + 1))

/-- The sink once it has been shown something that is within its limits. -/
def after (sink : Sink) (shown : List (List UInt8)) : Sink :=
  { sink with
    room := sink.room.map (· - shown.flatten.length)
    flushes := sink.flushes.map (· - shown.length)
    taken := sink.taken ++ shown.flatten }

theorem after_nil (sink : Sink) : sink.after [] = sink := by
  simp [after]

theorem after_cons (sink : Sink) (bytes : List UInt8) (shown : List (List UInt8)) :
    (sink.after [bytes]).after shown = sink.after (bytes :: shown) := by
  have taken : sink.taken ++ bytes ++ shown.flatten = sink.taken ++ (bytes ++ shown.flatten) := by
    apply Array.ext'
    simp
  simp [after, Function.comp_def, taken, Nat.sub_sub, Nat.add_comm]

theorem unlimited_after (sink : Sink) (shown : List (List UInt8)) :
    (sink.after shown).unlimited = sink.unlimited.after shown := rfl

theorem holds_nil (sink : Sink) : sink.Holds [] := ⟨fun _ _ => Nat.zero_le _, fun _ _ => Nat.zero_le _⟩

theorem holds_unlimited (sink : Sink) (shown : List (List UInt8)) : sink.unlimited.Holds shown :=
  ⟨nofun, nofun⟩

theorem holds_cons : sink.Holds (bytes :: shown) ↔
    sink.Holds [bytes] ∧ (sink.after [bytes]).Holds shown := by
  have size : (bytes :: shown).flatten.length = [bytes].flatten.length + shown.flatten.length := by
    simp
  constructor
  · intro whole
    refine ⟨⟨fun room has => ?_, fun count has => ?_⟩, ⟨fun left has => ?_, fun left has => ?_⟩⟩
    · have := whole.room room has
      omega
    · have := whole.flushes count has
      exact Nat.le_trans (Nat.succ_le_succ (Nat.zero_le _)) this
    · obtain ⟨room, before, rfl⟩ := Option.map_eq_some_iff.mp has
      have := whole.room room before
      omega
    · obtain ⟨count, before, rfl⟩ := Option.map_eq_some_iff.mp has
      exact Nat.le_sub_of_add_le (whole.flushes count before)
  · rintro ⟨first, rest⟩
    refine ⟨fun room has => ?_, fun count has => ?_⟩
    · have front := first.room room has
      have back := rest.room _ (Option.map_eq_some_iff.mpr ⟨room, has, rfl⟩)
      omega
    · have front := first.flushes count has
      have back := rest.flushes _ (Option.map_eq_some_iff.mpr ⟨count, has, rfl⟩)
      exact Nat.add_le_of_le_sub front back

theorem BreaksAt.cons {count : Nat} (first : sink.Holds [bytes])
    (breaks : (sink.after [bytes]).BreaksAt shown count) : sink.BreaksAt (bytes :: shown) (count + 1) :=
  ⟨holds_cons.mpr ⟨first, breaks.held⟩, fun held => breaks.broken (holds_cons.mp held).2⟩

theorem breaksAt_zero (first : ¬ sink.Holds [bytes]) (shown : List (List UInt8)) :
    sink.BreaksAt (bytes :: shown) 0 :=
  ⟨holds_nil sink, first⟩

theorem BreaksAt.not_holds {count : Nat} (breaks : sink.BreaksAt shown count) : ¬ sink.Holds shown := by
  intro whole
  have cut := congrArg (fun pieces => pieces.flatten.length) (List.take_append_drop (count + 1) shown)
  simp only [List.flatten_append, List.length_append] at cut
  refine breaks.broken ⟨fun room has => ?_, fun flushes has => ?_⟩
  · have := whole.room room has
    omega
  · exact Nat.le_trans (List.length_take_le' _ _) (whole.flushes flushes has)

theorem deliver_of_holds (holds : sink.Holds [bytes]) :
    deliver bytes sink = .ok () (sink.after [bytes]) := by
  obtain ⟨room, flushes, outage, taken⟩ := sink
  obtain ⟨fits, seen⟩ := holds
  have written : write bytes ⟨room, flushes, outage, taken⟩ =
      .ok () ⟨room.map (· - bytes.length), flushes, outage, taken ++ bytes⟩ := by
    cases room with
    | none => rfl
    | some room =>
      have enough : bytes.length ≤ room := by simpa using fits room rfl
      simp only [write, if_pos enough, List.take_of_length_le enough, Option.map_some]
  have flushed : flush ⟨room.map (· - bytes.length), flushes, outage, taken ++ bytes⟩ =
      .ok () ⟨room.map (· - bytes.length), flushes.map (· - 1), outage, taken ++ bytes⟩ := by
    cases flushes with
    | none => rfl
    | some count =>
      obtain ⟨count, rfl⟩ := Nat.exists_eq_add_of_le' (seen count rfl)
      rfl
  simp only [deliver, bind, EStateM.bind, written, flushed, after, List.flatten_cons, List.flatten_nil,
    List.append_nil, List.length_cons, List.length_nil]

theorem deliver_of_not_holds (exceeds : ¬ sink.Holds [bytes]) :
    ∃ next, deliver bytes sink = .error sink.outage next ∧
      next.taken.toList <+: sink.taken.toList ++ bytes := by
  obtain ⟨room, flushes, outage, taken⟩ := sink
  by_cases fits : ∀ space ∈ room, bytes.length ≤ space
  · -- the bytes are written, so it is the flush that fails
    have spent : flushes = some 0 := by
      by_contra left
      refine exceeds ⟨by simpa using fits, ?_⟩
      rintro (_ | count) has
      · exact absurd has left
      · exact Nat.succ_le_succ (Nat.zero_le _)
    subst spent
    cases room with
    | none => exact ⟨_, rfl, by simp⟩
    | some room =>
      have enough : bytes.length ≤ room := fits room rfl
      refine ⟨_, by simp only [deliver, bind, EStateM.bind, write, if_pos enough, flush]; rfl, ?_⟩
      simp [List.take_of_length_le enough]
  · cases room with
    | none =>
      refine absurd (fun space has => ?_) fits
      cases has
    | some room =>
      have short : ¬ bytes.length ≤ room := by simpa using fits
      refine ⟨_, by simp only [deliver, bind, EStateM.bind, write, if_neg short]; rfl, ?_⟩
      simpa using List.take_prefix _ _

end Sink

/-! ## What an episode shows -/

def Event.dots? : Event → Option (List UInt8)
  | sighting _ => none
  | report r => if r.judgement = .complete then none else some (Dots.row (Dots.width r.status.depth))

def dotsOf (log : Array Event) : List (List UInt8) := log.toList.filterMap Event.dots?

theorem dotsOf_seen (log : Array Event) (seen : List Sighting) :
    dotsOf (log ++ seen.map Event.sighting) = dotsOf log := by
  have silent : (seen.map Event.sighting).filterMap Event.dots? = [] := by
    simp [List.filterMap_map, Function.comp_def, Event.dots?]
  simp [dotsOf, silent]

namespace Policy

variable {p : Policy} {s t u : Scan} {prompt bytes body : List UInt8} {bodies : List (List UInt8)}
  {tail : Input.Tail} {sink : Sink} {log : Array Event} {seen : List Sighting} {input : Input}
  {pieces : List (List UInt8)} {whole r : Reading}

/-- What is shown during an episode at a sink without limits, by its log: the prompt, and dots for each
further line. -/
def shown (p : Policy) (prompt : List UInt8) (log : Array Event) : List (List UInt8) :=
  if p.settings.showsPrompt then prompt :: dotsOf log else []

theorem dotsOf_judge (log : Array Event) (p : Policy) (seen : List Sighting) (closed : Scan) :
    dotsOf (log ++ (p.judge seen closed).events) =
      dotsOf log ++ if closed.judgement p.settings p.vocabulary = .complete then []
        else [Dots.row (Dots.width closed.depth)] := by
  have silent : (seen.map Event.sighting).filterMap Event.dots? = [] := by
    simp [List.filterMap_map, Function.comp_def, Event.dots?]
  simp only [dotsOf, judge, Array.toList_appendList, List.filterMap_append, silent, List.nil_append]
  split <;> simp_all [Event.dots?, Scan.conclude]

theorem dotsOf_finish (tail : Input.Tail) (s : Scan) (sink : Sink) (log : Array Event) :
    dotsOf (finish tail s sink log).log = dotsOf log := by
  cases tail with
  | cut outage => rfl
  | rest bytes => simp only [finish]; split <;> exact dotsOf_seen log _

def ask (p : Policy) (bytes : List UInt8) (tail : Input.Tail) (bodies : List (List UInt8)) (s : Scan)
    (sink : Sink) (log : Array Event) : Reading :=
  match Sink.deliver bytes sink with
  | .ok _ next => p.follow tail bodies s next log
  | .error outage next =>
    { scan := s, failure := some (.outage outage), input := ⟨bodies, tail⟩, sink := next, log }

theorem read_eq_ask (shows : p.settings.showsPrompt = true) (prompt : List UInt8) (sink : Sink)
    (input : Input) :
    p.read prompt sink input = p.ask prompt input.tail input.lines {} sink #[] := by
  cases asked : Sink.deliver prompt sink with
  | ok _ next => simp only [read, ask, prompting, shows, if_true, asked]
  | error outage next => simp only [read, ask, prompting, shows, if_true, asked]

theorem follow_eq_ask (shows : p.settings.showsPrompt = true)
    (judged : p.line s body = p.judge seen t.closeLine)
    (more : t.closeLine.judgement p.settings p.vocabulary ≠ .complete) :
    p.follow tail (body :: bodies) s sink log =
      p.ask (Dots.row (Dots.width t.depth)) tail bodies (p.reopen t) sink
        (log ++ (p.judge seen t.closeLine).events) := by
  have outcome : (p.line s body).outcome =
      .ok (t.closeLine.judgement p.settings p.vocabulary) := by rw [judged]; rfl
  have asked : p.prompting (Dots.deliver (p.line s body).scan.openLine.depth) =
      Sink.deliver (Dots.row (Dots.width t.depth)) := by
    rw [prompting, if_pos shows, Dots.deliver_eq, judged]
    rfl
  cases judgement : t.closeLine.judgement p.settings p.vocabulary with
  | complete => contradiction
  | unfinished | dangling =>
    rw [judgement] at outcome
    simp only [follow, outcome, asked, ask]
    rw [judged]
    rfl

/-- How a reading at a sink compares with the whole one at a sink without limits, by the pieces that are
shown there. It is the same if all of them fit. If not, it breaks off before the line that the first
piece that does not fit was to ask for; `ahead` lines are taken without being asked for. -/
inductive Confined (p : Policy) (ahead : Nat) (s : Scan) (bodies : List (List UInt8))
    (tail : Input.Tail) (sink : Sink) (pieces : List (List UInt8)) (whole r : Reading) : Prop where
  | held (holds : sink.Holds pieces) (sinks : r.sink = sink.after pieces)
      (same : r = { whole with sink := r.sink })
  | broken {front back : List (List UInt8)} {seen : List Sighting} {count : Nat}
      (lines : bodies = front ++ back) (opened : p.StaysOpen s front seen r.scan)
      (failure : r.failure = some (.outage sink.outage)) (input : r.input = ⟨back, tail⟩)
      (length : front.length = count + ahead) (limit : sink.BreaksAt pieces count)
      (taken : r.sink.taken.toList <+: (sink.after pieces).taken.toList)

/-- The pieces that `whole` shows behind those in the log, and how the reading `r` compares. -/
structure Compares (p : Policy) (ahead : Nat) (s : Scan) (bodies : List (List UInt8))
    (tail : Input.Tail) (sink : Sink) (pieces : List (List UInt8)) (whole r : Reading) : Prop where
  shows : whole.sink = sink.unlimited.after pieces
  confined : p.Confined ahead s bodies tail sink pieces whole r

theorem ask_of_holds (holds : sink.Holds [bytes]) :
    p.ask bytes tail bodies s sink log = p.follow tail bodies s (sink.after [bytes]) log := by
  simp only [ask, Sink.deliver_of_holds holds]

theorem Compares.ask
    (follows : p.Compares 1 s bodies tail (sink.after [bytes]) pieces
      (p.follow tail bodies s (sink.after [bytes]).unlimited log)
      (p.follow tail bodies s (sink.after [bytes]) log)) :
    p.Compares 0 s bodies tail sink (bytes :: pieces)
      (p.ask bytes tail bodies s sink.unlimited log) (p.ask bytes tail bodies s sink log) := by
  rw [ask_of_holds (sink.holds_unlimited _), ← Sink.unlimited_after]
  refine ⟨?_, ?_⟩
  · rw [follows.shows, Sink.unlimited_after, Sink.after_cons]
  · by_cases holds : sink.Holds [bytes]
    · rw [ask_of_holds holds]
      cases follows.confined with
      | held rest sinks same =>
        exact .held (Sink.holds_cons.mpr ⟨holds, rest⟩) (by rw [sinks, Sink.after_cons]) same
      | broken lines opened failure input length limit taken =>
        rw [Sink.after_cons] at taken
        exact .broken lines opened failure input length (limit.cons holds) taken
    · obtain ⟨next, fails, taken⟩ := Sink.deliver_of_not_holds holds
      have stops : p.ask bytes tail bodies s sink log =
          { scan := s, failure := some (.outage sink.outage), input := ⟨bodies, tail⟩, sink := next,
            log } := by simp only [Policy.ask, fails]
      rw [stops]
      refine .broken (List.nil_append bodies).symm .nil rfl rfl rfl (Sink.breaksAt_zero holds _) ?_
      refine taken.trans ?_
      simp [Sink.after]

theorem Compares.stopped {ahead : Nat} (r : Reading) :
    p.Compares ahead s bodies tail sink [] { r with sink := sink.unlimited } { r with sink } where
  shows := (Sink.after_nil _).symm
  confined := .held sink.holds_nil (Sink.after_nil _).symm rfl

theorem finish_eq (tail : Input.Tail) (s : Scan) (sink : Sink) (log : Array Event) :
    finish tail s sink log = { finish tail s {} log with sink } := by
  cases tail with
  | cut outage => rfl
  | rest bytes => simp only [finish]; split <;> rfl

theorem follow_compares (shows : p.settings.showsPrompt = true) (tail : Input.Tail)
    (bodies : List (List UInt8)) (s : Scan) (sink : Sink) (log : Array Event) :
    ∃ pieces, dotsOf (p.follow tail bodies s sink.unlimited log).log = dotsOf log ++ pieces ∧
      p.Compares 1 s bodies tail sink pieces (p.follow tail bodies s sink.unlimited log)
        (p.follow tail bodies s sink log) := by
  induction bodies generalizing s sink log with
  | nil =>
    simp only [follow, dotsOf_finish]
    rw [finish_eq tail s sink, finish_eq tail s sink.unlimited]
    exact ⟨[], (List.append_nil _).symm, .stopped _⟩
  | cons body bodies ih =>
    rcases line_cases p s body with ⟨seen, t, accepted, judged⟩ |
      ⟨front, byte, back, seen, t, intrusion, -, -, -, stopped⟩
    · by_cases complete : t.closeLine.judgement p.settings p.vocabulary = .complete
      · rw [follow_completed judged complete, follow_completed judged complete]
        refine ⟨[], ?_, .stopped ⟨_, none, _, sink, _⟩⟩
        rw [dotsOf_judge, if_pos complete]
      · rw [follow_eq_ask shows judged complete, follow_eq_ask shows judged complete]
        -- the row of dots for this line is the first piece, and the only one that can fail here
        let bytes := Dots.row (Dots.width t.depth)
        obtain ⟨pieces, dots, follows⟩ := ih (p.reopen t) (sink.after [bytes])
          (log ++ (p.judge seen t.closeLine).events)
        have next := Compares.ask follows
        refine ⟨bytes :: pieces, ?_, next.shows, ?_⟩
        · rw [ask_of_holds (sink.holds_unlimited _), ← Sink.unlimited_after, dots, dotsOf_judge,
            if_neg complete, List.append_assoc]
          rfl
        · cases next.confined with
          | held holds sinks same => exact .held holds sinks same
          | broken lines opened failure input length limit taken =>
            exact .broken (congrArg (body :: ·) lines) (.cons accepted complete opened) failure input
              (congrArg (· + 1) length) limit taken
    · have outcome : (p.line s body).outcome = .error intrusion := by rw [stopped]
      rw [follow_refused outcome, follow_refused outcome, stopped]
      exact ⟨[], by rw [dotsOf_seen, List.append_nil], .stopped ⟨_, _, _, sink, _⟩⟩

theorem follow_of_silent (silent : p.settings.showsPrompt = false) (tail : Input.Tail)
    (bodies : List (List UInt8)) (s : Scan) (sink : Sink) (log : Array Event) :
    p.follow tail bodies s sink log = { p.follow tail bodies s {} log with sink } := by
  have quiet (action : Sink.Action) : p.prompting action = pure () := by simp [prompting, silent]
  induction bodies generalizing s log with
  | nil => exact finish_eq tail s sink log
  | cons body bodies ih =>
    simp only [follow, quiet, pure, EStateM.pure]
    split
    · rfl
    · rfl
    · exact ih _ _
    · exact ih _ _

theorem read_of_silent (silent : p.settings.showsPrompt = false) (prompt : List UInt8) (sink : Sink)
    (input : Input) :
    p.read prompt sink input = { p.follow input.tail input.lines {} {} #[] with sink } := by
  have reads : p.read prompt sink input = p.follow input.tail input.lines {} sink #[] := by
    simp only [read, prompting, silent]
    rfl
  exact reads.trans (follow_of_silent silent ..)

/-- What is shown before and during an episode, and how it goes at a sink with limits. -/
theorem read_compares (shows : p.settings.showsPrompt = true) (prompt : List UInt8) (sink : Sink)
    (input : Input) :
    let whole := p.read prompt sink.unlimited input
    p.Compares 0 {} input.lines input.tail sink (p.shown prompt whole.log) whole
      (p.read prompt sink input) := by
  intro whole
  obtain ⟨pieces, dots, follows⟩ := follow_compares shows input.tail input.lines {}
    (sink.after [prompt]) #[]
  have reads : whole = p.follow input.tail input.lines {} (sink.after [prompt]).unlimited #[] :=
    (read_eq_ask shows ..).trans (ask_of_holds (sink.holds_unlimited _))
  have shown : p.shown prompt whole.log = prompt :: pieces := by
    simp only [Policy.shown, shows, if_true, reads, dots]
    rfl
  have compares := Compares.ask follows
  rwa [← read_eq_ask shows, ← read_eq_ask shows, ← shown] at compares

theorem entry_of_staysOpen (opened : p.StaysOpen {} bodies seen u) (prompt : List UInt8)
    (sink : Sink) : u.entry = (p.read prompt sink.unlimited ⟨bodies, .rest []⟩).entry := by
  obtain ⟨next, free, reads⟩ := read_eq_follow p prompt ⟨bodies, .rest []⟩
    (show sink.unlimited.IsUnlimited from ⟨rfl, rfl⟩)
  rw [reads]
  exact (follow_of_exhausted opened free).2.symm

/-- Only the end of an episode depends on the limits of the sink. Within the limits, the episode is the
one at a sink without limits. Otherwise the sink takes a part of what it would be shown there, and the
episode fails with the outage of the sink. By then it has taken the lines before the first piece that does
not fit and nothing more, and it has the entry that these lines make up. -/
theorem read_limited (p : Policy) (prompt : List UInt8) (sink : Sink) (input : Input) :
    let r := p.read prompt sink input
    let whole := p.read prompt sink.unlimited input
    let shown := p.shown prompt whole.log
    whole.sink.taken.toList = sink.taken.toList ++ shown.flatten ∧
    r.sink.taken.toList <+: whole.sink.taken.toList ∧
    (sink.Holds shown → r = { whole with sink := sink.after shown }) ∧
    (¬ sink.Holds shown → r.failure = some (.outage sink.outage) ∧
      ∃ front back seen, input.lines = front ++ back ∧ r.input = ⟨back, input.tail⟩ ∧
        sink.BreaksAt shown front.length ∧ p.StaysOpen {} front seen r.scan ∧
        r.entry = (p.read prompt sink.unlimited ⟨front, .rest []⟩).entry) := by
  intro r whole shown
  cases shows : p.settings.showsPrompt with
  | false =>
    have nothing : shown = [] := by simp [shown, Policy.shown, shows]
    have one : r = { p.follow input.tail input.lines {} {} #[] with sink } := read_of_silent shows ..
    have other : whole = { p.follow input.tail input.lines {} {} #[] with sink := sink.unlimited } :=
      read_of_silent shows ..
    have same : r = { whole with sink := sink.after shown } := by
      rw [nothing, Sink.after_nil, one, other]
    refine ⟨?_, ?_, fun _ => same, fun exceeds => absurd (nothing ▸ sink.holds_nil) exceeds⟩
    · rw [other, nothing]
      exact (List.append_nil _).symm
    · rw [one, other]
      exact List.prefix_rfl
  | true =>
    obtain ⟨whole', confined⟩ := read_compares shows prompt sink input
    have taken : whole.sink.taken = (sink.after shown).taken := by
      rw [show whole.sink = _ from whole']
      rfl
    refine ⟨?_, ?_, ?_⟩
    · rw [taken, Sink.after, Array.toList_appendList]
    · rw [taken]
      cases confined with
      | held _ sinks _ =>
        have equal : r.sink.taken = (sink.after shown).taken := congrArg Sink.taken sinks
        exact equal ▸ List.prefix_rfl
      | broken _ _ _ _ _ _ part => exact part
    · cases confined with
      | held holds sinks same =>
        refine ⟨fun _ => same.trans ?_, fun exceeds => absurd holds exceeds⟩
        rw [sinks]
      | broken lines opened failure input length limit _ =>
        refine ⟨fun holds => absurd holds limit.not_holds, fun _ => ⟨failure, ?_⟩⟩
        exact ⟨_, _, _, lines, input, length ▸ limit, opened, entry_of_staysOpen opened prompt sink⟩

/-- A call over two lines, with room for the prompt and a part of the dots only. The first line is kept. -/
theorem read_limited_in_dots :
    let p : Policy := { settings := ⟨Settings.promptBit⟩ }
    let sink : Sink := { room := some 3 }
    let r := p.read [0x3e] sink (Input.ofBytes [0x66, 0x28, 0x0a, 0x29, 0x0a] none)
    r.failure = some (.outage .shortWrite) ∧ r.entry = ⟨#[0x66, 0x28, 0x0a], some 0⟩ ∧
      r.sink.taken = #[0x3e, 0x2e, 0x20] ∧ r.input.lines.length = 1 := by
  intro p sink r
  obtain ⟨-, -, -, breaks⟩ :=
    read_limited p [0x3e] sink (Input.ofBytes [0x66, 0x28, 0x0a, 0x29, 0x0a] none)
  have exceeds : ¬ sink.Holds (p.shown [0x3e]
      (p.read [0x3e] sink.unlimited (Input.ofBytes [0x66, 0x28, 0x0a, 0x29, 0x0a] none)).log) := by
    intro holds
    exact absurd (holds.room 3 rfl) (by decide +kernel)
  obtain ⟨failure, -⟩ := breaks exceeds
  exact ⟨failure, by decide +kernel, by decide +kernel, by decide +kernel⟩

end Policy

end Linewise
