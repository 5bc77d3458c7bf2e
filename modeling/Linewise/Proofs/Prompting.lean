import Linewise.Proofs.Attempts
import Linewise.Proofs.Limits

/-! Prompts are written and never looked at: an episode goes the same way with them and without.
Behind every line that is followed by another attempt stands a row of dots as wide as the depth
demands (`Policy.read_prompted`). -/

namespace Linewise

/-! ## Columns -/

namespace Dots

/-- The endless pattern of a row: a dot in every even column, a space in every odd one. -/
def pattern (column : Nat) : UInt8 := if column % 2 = 0 then 0x2e else 0x20

def columns (count : Nat) : List UInt8 := (List.range count).map pattern

theorem take_columns {part count : Nat} (fewer : part ≤ count) :
    (columns count).take part = columns part := by
  rw [columns, ← List.map_take, List.take_range, Nat.min_eq_left fewer, columns]

/-- Behind an even number of columns, the turns begin anew. -/
theorem columns_add {count : Nat} (even : count % 2 = 0) (more : Nat) :
    columns (count + more) = columns count ++ columns more := by
  have shift : ∀ column, pattern (count + column) = pattern column := by
    intro column
    rw [pattern, Nat.add_mod, even, Nat.zero_add, Nat.mod_mod, pattern]
  simp only [columns, List.range_add, List.map_append, List.map_map, Function.comp_def, shift]

theorem length_block : block.length = 32 := by decide

theorem block_eq_columns : block = columns 32 := by decide

theorem flatten_blocks (count : Nat) :
    (List.replicate count block).flatten = columns (32 * count) := by
  induction count with
  | zero => simp [columns]
  | succ count ih =>
    rw [List.replicate_succ', List.flatten_append, ih, Nat.mul_succ, columns_add (by omega),
      ← block_eq_columns]
    simp

theorem row_eq_columns (count : Nat) : row count = columns count := by
  have part : count % 32 ≤ 32 := by omega
  calc row count
      = columns (32 * (count / 32)) ++ columns (count % 32) := by
        rw [row, flatten_blocks, length_block, block_eq_columns, take_columns part]
    _ = columns (32 * (count / 32) + count % 32) := (columns_add (by omega) _).symm
    _ = columns count := by rw [Nat.div_add_mod]

end Dots

/-! ## Settings with prompts and without -/

namespace Settings

theorem or_and_eq (a b c : UInt8) : (a ||| b) &&& c = (a &&& c) ||| (b &&& c) :=
  UInt8.eq_of_toBitVec_eq BitVec.and_or_distrib_right

theorem showsPrompt_or (bits : UInt8) : showsPrompt ⟨bits ||| promptBit⟩ = true := by
  have apart : promptBit ≠ 0 := by decide
  simp [showsPrompt, or_and_eq, UInt8.or_eq_zero_iff, apart]

theorem showsPrompt_and_not (bits : UInt8) : showsPrompt ⟨bits &&& ~~~promptBit⟩ = false := by
  have none : ~~~promptBit &&& promptBit = 0 := by decide
  simp [showsPrompt, UInt8.and_assoc, none]

theorem collectsComments_or (bits : UInt8) :
    collectsComments ⟨bits ||| promptBit⟩ = collectsComments ⟨bits⟩ := by
  have none : promptBit &&& commentsBit = 0 := by decide
  simp [collectsComments, or_and_eq, none]

theorem collectsComments_and_not (bits : UInt8) :
    collectsComments ⟨bits &&& ~~~promptBit⟩ = collectsComments ⟨bits⟩ := by
  have same : ~~~promptBit &&& commentsBit = commentsBit := by decide
  simp [collectsComments, UInt8.and_assoc, same]

end Settings

namespace Sink

variable {sink : Sink}

theorem unlimited_eq_self (free : sink.IsUnlimited) : sink.unlimited = sink := by
  obtain ⟨room, flushes, outage, taken⟩ := sink
  obtain ⟨rfl, rfl⟩ := free
  rfl

end Sink

namespace Policy

variable {p q : Policy} {s u : Scan} {bodies front back : List (List UInt8)} {ends last : List Scan}
  {tail : Input.Tail} {sink sink' : Sink} {log : Array Event} {r : Reading}

/-! ## Reading with prompts and without -/

theorem line_congr (words : q.vocabulary = p.vocabulary)
    (comments : q.settings.collectsComments = p.settings.collectsComments) (s : Scan)
    (body : List UInt8) : q.line s body = p.line s body := by
  have judged (closed : Scan) : closed.judgement q.settings q.vocabulary =
      closed.judgement p.settings p.vocabulary := by
    have resolved : closed.isResolved q.settings = closed.isResolved p.settings := by
      simp only [Scan.isResolved, comments]
    simp only [Scan.judgement, resolved, words]
  simp only [line, judged]

theorem follow_congr (words : q.vocabulary = p.vocabulary)
    (comments : q.settings.collectsComments = p.settings.collectsComments)
    (unlimited : sink.IsUnlimited) (unlimited' : sink'.IsUnlimited) :
    q.follow tail bodies s sink' log =
      { p.follow tail bodies s sink log with sink := (q.follow tail bodies s sink' log).sink } := by
  induction bodies generalizing s sink sink' log with
  | nil =>
    simp only [follow]
    rw [finish_eq tail s sink, finish_eq tail s sink']
  | cons body bodies ih =>
    have line := line_congr words comments s body
    cases outcome : (p.line s body).outcome with
    | error intrusion =>
      rw [follow_refused outcome, follow_refused (line ▸ outcome), line]
    | ok judgement =>
      by_cases complete : judgement = .complete
      · subst complete
        rw [follow_complete outcome, follow_complete (line ▸ outcome), line]
      · obtain ⟨next, still, goes⟩ := follow_unfinished outcome complete unlimited
        obtain ⟨next', still', goes'⟩ := follow_unfinished (line ▸ outcome) complete unlimited'
        rw [goes, goes', line]
        exact ih still still'

/-! ## What is written -/

theorem Last.complete_of_mem (final : p.Last tail sink u back last r) :
    ∀ closed ∈ last, closed.judgement p.settings p.vocabulary = .complete := by
  cases final with
  | complete _ complete _ _ _ => simpa using complete
  | refused | exhausted | unasked => exact List.forall_mem_nil _

theorem dotsOf_eq (log : Array Event) :
    dotsOf log = (reportsOf log).filterMap fun report => Event.dots? (.report report) := by
  rw [dotsOf, reportsOf, List.filterMap_filterMap]
  congr 1
  funext event
  cases event <;> rfl

/-- There is a row of dots for every line that is followed by another attempt, and no more. -/
theorem Attempts.dotsOf (attempts : p.Attempts tail sink s bodies front back ends last u r)
    (reports : r.reports = (ends ++ last).map p.report) :
    dotsOf r.log = ends.map fun closed => Dots.row (Dots.width closed.depth) := by
  have open_ : ends.filterMap (fun closed => Event.dots? (.report (p.report closed))) =
      ends.map fun closed => Dots.row (Dots.width closed.depth) := by
    rw [← List.filterMap_eq_map]
    refine List.filterMap_congr fun closed member => ?_
    simp [Event.dots?, report, attempts.more closed member, Scan.conclude]
  have done : last.filterMap (fun closed => Event.dots? (.report (p.report closed))) = [] := by
    rw [List.filterMap_eq_nil_iff]
    intro closed member
    simp [Event.dots?, report, attempts.last.complete_of_mem closed member]
  rw [dotsOf_eq, show reportsOf r.log = _ from reports, List.filterMap_map, List.filterMap_append]
  exact (congrArg₂ _ open_ done).trans (List.append_nil _)

theorem taken_read (shows : p.settings.showsPrompt = true) (prompt : List UInt8)
    (unlimited : sink.IsUnlimited) (input : Input) :
    (p.read prompt sink input).sink.taken.toList =
      sink.taken.toList ++ prompt ++ (dotsOf (p.read prompt sink input).log).flatten := by
  have whole := (read_compares shows prompt sink input).shows
  rw [Sink.unlimited_eq_self unlimited] at whole
  rw [whole]
  simp [Sink.after, shown, shows]

/-- The prompt bit has no influence on an episode, apart from what is written. Without it, nothing is.
With it, that is the prompt, and a row of dots for every line that left the unit open, of the width that
the depth at its end demands. Each of these lines was followed by another attempt to read one, so there is
one row less than there were attempts. -/
theorem read_prompted (vocabulary : Vocabulary) (bits : UInt8) (prompt prompt' : List UInt8)
    (sink : Sink) {sink' : Sink} (unlimited : sink'.IsUnlimited) (input : Input) :
    let silent : Policy := { settings := ⟨bits &&& ~~~Settings.promptBit⟩, vocabulary }
    let loud : Policy := { settings := ⟨bits ||| Settings.promptBit⟩, vocabulary }
    let r := silent.read prompt sink input
    let r' := loud.read prompt' sink' input
    r' = { r with sink := r'.sink } ∧ r.sink = sink ∧
      ∃ front back ends last u,
        loud.Attempts input.tail sink' {} input.lines front back ends last u r' ∧
        r'.input = Input.behind (ends.length + 1) input ∧
        r'.sink.taken.toList = sink'.taken.toList ++ prompt' ++
          (ends.map fun closed => Dots.columns (4 + 2 * closed.depth)).flatten := by
  intro silent loud r r'
  have mute : silent.settings.showsPrompt = false := Settings.showsPrompt_and_not bits
  have reads : r = { silent.follow input.tail input.lines {} {} #[] with sink } :=
    read_of_silent mute ..
  have same : r' = { r with sink := r'.sink } := by
    obtain ⟨next, free, reads'⟩ := read_eq_follow loud prompt' input unlimited
    have comments := (Settings.collectsComments_or bits).trans
      (Settings.collectsComments_and_not bits).symm
    have congr : loud.follow input.tail input.lines {} next #[] =
        { silent.follow input.tail input.lines {} {} #[] with
          sink := (loud.follow input.tail input.lines {} next #[]).sink } :=
      follow_congr rfl comments ⟨rfl, rfl⟩ free
    rw [← reads'] at congr
    rw [reads]
    exact congr
  refine ⟨same, by rw [reads], ?_⟩
  obtain ⟨front, back, ends, last, u, attempts, reports⟩ := read_attempts loud prompt' sink' input
  refine ⟨front, back, ends, last, u, attempts, ?_, ?_⟩
  · rw [show r'.input = _ from attempts.last.input unlimited, attempts.traverses.length_eq,
      ← Input.behind_append, ← attempts.lines]
  · have written := taken_read (p := loud) (Settings.showsPrompt_or bits) prompt' unlimited
      input
    rw [show r'.sink.taken.toList = _ from written, attempts.dotsOf reports]
    simp only [Dots.row_eq_columns, Dots.width]

/-- An input that ends two brackets deep, behind two lines. The third attempt meets its end. -/
theorem read_prompted_brackets :
    let silent : Policy := { settings := ⟨4 &&& ~~~Settings.promptBit⟩ }
    let loud : Policy := { settings := ⟨4 ||| Settings.promptBit⟩ }
    let input := Input.ofBytes [0x66, 0x28, 0x0a, 0x5b, 0x0a] none
    let r := silent.read [0x3e] {} input
    let r' := loud.read [0x3e] {} input
    r'.entry = r.entry ∧ r'.failure = some .openEnd ∧ r.sink.taken = #[] ∧
      r'.sink.taken.toList = [0x3e] ++ Dots.columns 6 ++ Dots.columns 8 := by
  intro silent loud input r r'
  have unlimited : Sink.IsUnlimited {} := ⟨rfl, rfl⟩
  obtain ⟨same, quiet, -⟩ := read_prompted .go 4 [0x3e] [0x3e] {} unlimited input
  have entry : r'.entry = _ := congrArg Reading.entry same
  have untouched : r.sink = {} := quiet
  exact ⟨entry, by decide +kernel, by rw [untouched], by decide +kernel⟩

end Policy

end Linewise
