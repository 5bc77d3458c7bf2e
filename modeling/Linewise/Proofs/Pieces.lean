import Mathlib.Data.List.Chain
import Linewise.Proofs.Lines

/-! A separator becomes a newline in the text of an entry, but the line goes on behind it. A reader
that cuts the text behind every newline meets each byte in the same context, as long as no separator
stands in a line comment (`Policy.read_in_pieces_iff`). -/

namespace Linewise

/-! ## Line ends -/

namespace Context

/-- A context in which a line can begin: the end of a line leaves it as it is. -/
def BeginsLine (context : Context) : Prop := context.atLineEnd.atLineStart = context

variable {context : Context}

theorem beginsLine_nextLine (context : Context) : context.atLineEnd.atLineStart.BeginsLine := by
  cases context <;> rfl

theorem beginsLine_of_ne (comment : context ≠ lineComment) (sign : ∀ s, context ≠ sign s) :
    context.BeginsLine := by
  cases context with
  | lineComment => contradiction
  | sign s => exact absurd rfl (sign s)
  | code | quoted _ | escape _ | raw | slash | hash | block | blockStar | tilde => rfl

theorem BeginsLine.ne_lineComment (begins : context.BeginsLine) : context ≠ lineComment := by
  rintro rfl
  cases begins

end Context

/-- The byte and the context it met. -/
def Sighting.met (x : Sighting) : UInt8 × Context := (x.byte, x.before)

/-- No line comment goes on from one byte to the next behind a newline. -/
def Sighting.Parted (x y : Sighting) : Prop := x.byte = Byte.newline → y.before ≠ .lineComment

instance : DecidableRel Sighting.Parted := fun x y =>
  inferInstanceAs (Decidable (x.byte = Byte.newline → y.before ≠ .lineComment))

theorem Sighting.parted_of_met {seen again : List Sighting} (same : again.map met = seen.map met)
    (parted : again.IsChain Parted) : seen.IsChain Parted := by
  let R : UInt8 × Context → UInt8 × Context → Prop := fun x y =>
    x.1 = Byte.newline → y.2 ≠ .lineComment
  have mapped : (again.map met).IsChain R := (List.isChain_map met).mpr parted
  rw [same] at mapped
  exact (List.isChain_map met).mp mapped

namespace Scan

open Sighting (met Parted)

variable {s s' t t' u u' : Scan} {byte : UInt8} {effect : Effect} {bytes body piece : List UInt8}
  {bodies more pieces later : List (List UInt8)} {seen again first last : List Sighting}

def nextLine (s : Scan) : Scan := s.closeLine.openLine

theorem nextLine_eq_self (begins : s.context.BeginsLine) : s.nextLine = s := by
  have same : s.context.atLineEnd.atLineStart = s.context := begins
  simp only [nextLine, closeLine, openLine, same]

/-! ## Scanning line by line -/

/-- Scans terminated lines one after the other, without judging any. -/
def lines (s : Scan) : List (List UInt8) → Run
  | [] => ⟨s, [], none⟩
  | body :: bodies =>
    let run := s.line (Input.terminated body)
    match run.intrusion with
    | some _ => run
    | none =>
      let rest := run.scan.nextLine.lines bodies
      { rest with seen := run.seen ++ rest.seen }

/-- A scan takes terminated lines to the scan behind the last of them, without refusing any byte. -/
inductive AcceptsLines : Scan → List (List UInt8) → List Sighting → Scan → Prop where
  | nil {s : Scan} : AcceptsLines s [] [] s
  | cons {s t u : Scan} {body : List UInt8} {bodies : List (List UInt8)} {seen later : List Sighting}
      (accepted : Accepts { s with lineStart := s.text.size } (Input.terminated body) seen t)
      (rest : AcceptsLines t.nextLine bodies later u) :
      AcceptsLines s (body :: bodies) (seen ++ later) u

theorem AcceptsLines.append (one : AcceptsLines s bodies seen t) (two : AcceptsLines t more again u) :
    AcceptsLines s (bodies ++ more) (seen ++ again) u := by
  induction one with
  | nil => exact two
  | cons accepted _ ih =>
    rw [List.append_assoc]
    exact .cons accepted (ih two)

theorem lines_eq (accepted : AcceptsLines s bodies seen t) : s.lines bodies = ⟨t, seen, none⟩ := by
  induction accepted with
  | nil => rfl
  | cons accepted _ ih =>
    simp only [lines, line, run_eq accepted, ih]

theorem acceptsLines_of_lines (clean : (s.lines bodies).intrusion = none) :
    AcceptsLines s bodies (s.lines bodies).seen (s.lines bodies).scan := by
  induction bodies generalizing s with
  | nil => exact .nil
  | cons body bodies ih =>
    rcases run_cases { s with lineStart := s.text.size } (Input.terminated body) with
      ⟨seen, t, accepted, run⟩ | ⟨front, byte, back, seen, t, intrusion, -, -, -, run⟩
    · have whole : s.lines (body :: bodies) =
          { t.nextLine.lines bodies with seen := seen ++ (t.nextLine.lines bodies).seen } := by
        simp only [lines, line, run]
      rw [whole] at clean ⊢
      exact .cons accepted (ih clean)
    · have stopped : (s.lines (body :: bodies)).intrusion = some intrusion := by
        simp only [lines, line, run]
      cases clean.symm.trans stopped

theorem AcceptsLines.map_byte (accepted : AcceptsLines s bodies seen t) :
    seen.map Sighting.byte = (bodies.map Input.terminated).flatten := by
  induction accepted with
  | nil => rfl
  | cons accepted _ ih => rw [List.map_append, accepted.map_byte, ih]; rfl

/-! ## No comment goes on behind a line -/

theorem Accepts.head_before (accepted : Accepts s bytes seen t) :
    ∀ x ∈ seen.head?, x.before = s.context := by
  intro x member
  cases accepted with
  | nil => simp at member
  | cons one _ =>
    cases member
    rfl

theorem Accepts.parted (accepted : Accepts s (Input.terminated body) seen t)
    (closed : Byte.newline ∉ body) : seen.IsChain Parted := by
  obtain ⟨first, last, u, rfl, front, ended⟩ := accepted.split
  have inside : ∀ x ∈ first, x.byte ≠ Byte.newline := by
    intro x member newline
    exact closed (front.map_byte ▸ List.mem_map.mpr ⟨x, member, newline⟩)
  have apart : first.Pairwise Parted :=
    List.pairwise_of_forall_mem_list fun x member _ _ newline => absurd newline (inside x member)
  refine apart.isChain.append ?_ fun x member _ _ newline => ?_
  · cases ended with
    | cons one none =>
      cases none
      exact .singleton _
  · exact absurd newline (inside x (List.mem_of_getLast? member))

theorem AcceptsLines.parted (accepted : AcceptsLines s bodies seen t) (begins : s.context.BeginsLine)
    (closed : ∀ body ∈ bodies, Byte.newline ∉ body) :
    seen.IsChain Parted ∧ ∀ x ∈ seen.head?, x.before ≠ .lineComment := by
  induction accepted with
  | nil => exact ⟨.nil, by simp⟩
  | @cons s t u body bodies seen later accepted _ ih =>
    obtain ⟨first, others⟩ := List.forall_mem_cons.mp closed
    obtain ⟨parted, start⟩ := ih (Context.beginsLine_nextLine _) others
    refine ⟨(accepted.parted first).append parted fun _ _ y member _ => start y member, ?_⟩
    intro x member
    have occupied : seen ≠ [] := by
      rintro rfl
      have none := accepted.map_byte
      simp [Input.terminated] at none
    rw [List.head?_append_of_ne_nil _ occupied] at member
    rw [accepted.head_before x member]
    exact begins.ne_lineComment

/-! ## Scans that agree -/

/-- The scans differ in expectations and line starts at most. -/
structure Agrees (s t : Scan) : Prop where
  context : t.context = s.context
  depth : t.depth = s.depth
  extent : t.extent = s.extent
  text : t.text = s.text

theorem agrees_self (s : Scan) : Agrees s s := ⟨rfl, rfl, rfl, rfl⟩

theorem Agrees.startLine (agrees : Agrees s t) (a b : Nat) :
    Agrees { s with lineStart := a } { t with lineStart := b } :=
  ⟨agrees.context, agrees.depth, agrees.extent, agrees.text⟩

theorem Agrees.nextLine (agrees : Agrees s t) : Agrees s.nextLine t.nextLine :=
  ⟨congrArg (fun c => c.atLineEnd.atLineStart) agrees.context, agrees.depth, agrees.extent,
    agrees.text⟩

theorem Agrees.apply (agrees : Agrees s t) (byte : UInt8) (effect : Effect) :
    Agrees (s.apply byte effect) (t.apply byte effect) where
  context := rfl
  depth := by simp only [Scan.apply, Status.after, agrees.depth]
  extent := by simp only [Scan.apply, Status.after, agrees.extent, agrees.text]
  text := by simp only [Scan.apply, agrees.text]

theorem Agrees.accepted (agrees : Agrees s t) (accepted : s.effect byte = .ok effect) :
    t.effect byte = .ok effect := by
  rw [effect_eq_ok_iff] at accepted ⊢
  rw [agrees.context, agrees.depth, accepted]

theorem Agrees.accepts (agrees : Agrees s s') (accepted : Accepts s bytes seen t) :
    ∃ again t', Accepts s' bytes again t' ∧ again.map met = seen.map met ∧ Agrees t t' := by
  induction accepted generalizing s' with
  | nil => exact ⟨[], s', .nil, rfl, agrees⟩
  | @cons s t byte effect bytes seen one _ ih =>
    obtain ⟨again, t', rest, same, agrees'⟩ := ih (agrees.apply byte effect)
    refine ⟨_, t', .cons (agrees.accepted one) rest, ?_, agrees'⟩
    simp only [List.map_cons, same, met, sighting, agrees.context]

/-! ## Pieces -/

/-- What was seen up to a scan `t` is seen again when its pieces are taken from `s'` to `t'`. -/
structure Retold (s' : Scan) (seen : List Sighting) (t : Scan) (pieces : List (List UInt8))
    (again : List Sighting) (t' : Scan) : Prop where
  accepted : AcceptsLines s' pieces again t'
  closed : ∀ piece ∈ pieces, Byte.newline ∉ piece
  same : again.map met = seen.map met
  agrees : Agrees t t'

theorem Retold.flatten (retold : Retold s' seen t pieces again t') :
    (pieces.map Input.terminated).flatten = seen.map Sighting.byte := by
  have bytes := congrArg (List.map Prod.fst) retold.same
  rw [List.map_map, List.map_map] at bytes
  exact retold.accepted.map_byte.symm.trans bytes

theorem Retold.append (one : Retold s' first t pieces seen t')
    (two : Retold t' last u later again u') :
    Retold s' (first ++ last) u (pieces ++ later) (seen ++ again) u' where
  accepted := one.accepted.append two.accepted
  closed := List.forall_mem_append.mpr ⟨one.closed, two.closed⟩
  same := by rw [List.map_append, List.map_append, one.same, two.same]
  agrees := two.agrees

theorem beginsLine_behind (line : Accepts s (Input.terminated body) first u)
    (rest : Accepts u ((piece :: pieces).map Input.terminated).flatten last t)
    (parted : (first ++ last).IsChain Parted) : u.context.BeginsLine := by
  obtain ⟨front, stop, v, rfl, -, newline⟩ := line.split
  cases newline with
  | @cons _ _ _ effect _ _ one none =>
    cases none
    obtain ⟨y, head⟩ : ∃ y, last.head? = some y := by
      have some := congrArg List.length rest.map_byte
      cases last with
      | nil => simp [Input.terminated] at some
      | cons y later => exact ⟨y, rfl⟩
    obtain ⟨-, -, apart⟩ := List.isChain_append.mp parted
    have outside := apart _ List.getLast?_concat y head rfl
    rw [rest.head_before y head] at outside
    exact Context.beginsLine_of_ne outside fun _ =>
      Context.ne_sign_of_isBlank (effect_eq_ok_iff.mp one) rfl

/-- A stretch of lines that was taken as one line can be taken line by line, if no comment goes on
behind one of them. -/
theorem Agrees.lines (agrees : Agrees s s') (begins : s.context.BeginsLine)
    (accepted : Accepts s (bodies.map Input.terminated).flatten seen t)
    (closed : ∀ body ∈ bodies, Byte.newline ∉ body) (parted : seen.IsChain Parted) :
    ∃ again t', Retold s' seen t.nextLine bodies again t' := by
  induction bodies generalizing s s' seen with
  | nil =>
    cases accepted
    rw [nextLine_eq_self begins]
    exact ⟨[], s', .nil, closed, rfl, agrees⟩
  | cons body bodies ih =>
    obtain ⟨here, others⟩ := List.forall_mem_cons.mp closed
    obtain ⟨first, last, u, rfl, line, rest⟩ := accepted.split
    obtain ⟨again, u', line', same, agrees'⟩ :=
      (agrees.startLine s.lineStart s'.text.size).accepts line
    have taken : AcceptsLines s' [body] again u'.nextLine := by
      simpa using AcceptsLines.cons line' .nil
    cases bodies with
    -- the last piece ends where the line does; behind any other no comment goes on
    | nil =>
      cases rest
      rw [List.append_nil]
      exact ⟨again, u'.nextLine, taken, closed, same, agrees'.nextLine⟩
    | cons other bodies =>
      have begins' := beginsLine_behind line rest parted
      have next := agrees'.nextLine
      rw [nextLine_eq_self begins'] at next
      obtain ⟨again', t', retold⟩ := ih next begins' rest others parted.right_of_append
      have now : Retold s' first u [body] again u'.nextLine :=
        ⟨taken, by simpa using here, same, next⟩
      exact ⟨again ++ again', t', now.append retold⟩

theorem Agrees.line (agrees : Agrees s s') (begins : s.context.BeginsLine)
    (accepted : Accepts { s with lineStart := s.text.size }
      (Separator.replace (Input.terminated body)).bytes seen t) (parted : seen.IsChain Parted) :
    ∃ pieces again t', Retold s' seen t.nextLine pieces again t' := by
  have split := Input.split_terminated (Separator.replace body).bytes
  have pieces := Input.flatten_split (Input.terminated (Separator.replace body).bytes)
  rw [split, List.append_nil] at pieces
  have closed := (Input.newline_not_mem_split (Input.terminated (Separator.replace body).bytes)).1
  rw [split] at closed
  rw [Separator.replace_terminated] at accepted
  change Accepts _ (Input.terminated _) seen t at accepted
  rw [← pieces] at accepted
  obtain ⟨again, t', retold⟩ :=
    (agrees.startLine s.text.size s'.lineStart).lines begins accepted closed parted
  exact ⟨_, again, t', retold⟩

end Scan

/-! ## Texts without hash signs -/

namespace Shebang

theorem text_of_hashless {source text : List UInt8} {bangs : List Nat}
    (rewritten : Rewritten bangs source text) (hashless : Byte.hash ∉ source) :
    text = source := by
  have none : bangs = [] := List.eq_nil_iff_forall_not_mem.mpr fun bang member =>
    hashless (List.mem_of_getElem? (rewritten.spelled bang member).2.1)
  rw [rewritten.text_eq, none, ← (rewritten_self source).text_eq]

end Shebang

namespace Separator

theorem hashless_replace {text : List UInt8} (hashless : Byte.hash ∉ text) :
    Byte.hash ∉ (replace text).bytes := by
  induction text with
  | nil => exact hashless
  | cons byte text ih =>
    have here := List.ne_of_not_mem_cons hashless
    have there := ih (List.not_mem_of_not_mem_cons hashless)
    rw [replace_cons, Replaced.cons]
    split
    · refine List.not_mem_cons_of_ne_of_not_mem (by decide) fun member => ?_
      exact there (List.mem_of_mem_drop member)
    · exact List.not_mem_cons_of_ne_of_not_mem here there

end Separator

/-! ## Episodes -/

namespace Policy

open Scan (Retold Agrees)
open Sighting (met Parted)

variable {p : Policy} {s s' t u : Scan} {bodies : List (List UInt8)} {body : List UInt8}
  {seen last : List Sighting}

theorem StaysOpen.retold (opened : p.StaysOpen s bodies seen u) (agrees : Agrees s s')
    (begins : s.context.BeginsLine) (parted : seen.IsChain Parted) :
    u.context.BeginsLine ∧ ∃ pieces again u', Retold s' seen u pieces again u' := by
  induction opened generalizing s' with
  | nil => exact ⟨begins, [], [], s', .nil, nofun, rfl, agrees⟩
  | @cons s t u body bodies seen later accepted _ _ ih =>
    obtain ⟨pieces, again, t', line⟩ := agrees.line begins accepted parted.left_of_append
    have judged : Agrees (p.reopen t) t' :=
      ⟨line.agrees.context, line.agrees.depth, line.agrees.extent, line.agrees.text⟩
    obtain ⟨begins', more, again', u', rest⟩ :=
      ih judged (Context.beginsLine_nextLine _) parted.right_of_append
    have line' : Retold s' seen (p.reopen t) pieces again t' :=
      ⟨line.accepted, line.closed, line.same, judged⟩
    exact ⟨begins', pieces ++ more, again ++ again', u', line'.append rest⟩

theorem StaysOpen.retold_line (opened : p.StaysOpen {} bodies seen u)
    (accepted : Scan.Accepts { u with lineStart := u.text.size }
      (Separator.replace (Input.terminated body)).bytes last t)
    (parted : (seen ++ last).IsChain Parted) :
    ∃ pieces again t', Retold {} (seen ++ last) t.nextLine pieces again t' := by
  obtain ⟨begins, pieces, again, u', front⟩ :=
    opened.retold (Scan.agrees_self {}) rfl parted.left_of_append
  obtain ⟨more, again', t', line⟩ :=
    front.agrees.line begins accepted parted.right_of_append
  exact ⟨pieces ++ more, again ++ again', t', front.append line⟩

theorem StaysOpen.text_of_hashless (opened : p.StaysOpen {} bodies seen u)
    (accepted : Scan.Accepts { u with lineStart := u.text.size }
      (Separator.replace (Input.terminated body)).bytes last t)
    (hashless : Byte.hash ∉ ((bodies ++ [body]).map Input.terminated).flatten) :
    t.text.toList = (seen ++ last).map Sighting.byte := by
  obtain ⟨told, bytes⟩ := opened.told accepted
  refine Shebang.text_of_hashless told.text ?_
  rw [bytes, ← Separator.replace_lines_append]
  exact Separator.hashless_replace (by simpa using hashless)

/-- The text of an entry is taken in pieces: one for each newline, whether it was read as one or put in
for a separator, and without judging any. Each byte meets the context that it met when the entry was
read, exactly if no line comment went on behind a newline; then the code starts in the same place, and
the text leaves nothing open. -/
theorem read_in_pieces_iff (p : Policy) (prompt : List UInt8) (sink : Sink) (text : List UInt8)
    (outage : Option Outage) (hashless : Byte.hash ∉ text)
    (complete : (p.read prompt sink (Input.ofBytes text outage)).failure = none) :
    let r := p.read prompt sink (Input.ofBytes text outage)
    let again := Scan.lines {} (Input.split r.scan.text.toList).1
    (Input.split r.scan.text.toList).2 = [] ∧
      (r.sightings.IsChain Parted ↔
        again.intrusion = none ∧ again.seen.map met = r.sightings.map met) ∧
      (r.sightings.IsChain Parted → again.intrusion = none ∧
        again.scan.codeStart = r.entry.start ∧ again.scan.depth = 0 ∧ again.scan.context = .code) := by
  intro r again
  obtain ⟨front, body, rest, seen, last, u, t, enters⟩ := read_enters complete
  have text' : r.scan.text = t.text := by rw [enters.scan]; rfl
  have bytes : t.text.toList = (seen ++ last).map Sighting.byte :=
    enters.opened.text_of_hashless enters.accepted fun member =>
      hashless (enters.whole ▸ List.mem_append_left rest member)
  have ended : (Input.split r.scan.text.toList).2 = [] := by
    have newline := Scan.back?_of_terminated enters.accepted
    rw [← Array.getLast?_toList] at newline
    obtain ⟨before, spelled⟩ := List.getLast?_eq_some_iff.mp newline
    rw [text']
    exact congrArg Prod.snd ((congrArg Input.split spelled).trans (Input.split_terminated before))
  have retell : r.sightings.IsChain Parted →
      ∃ seen' t', Retold {} r.sightings t.nextLine (Input.split r.scan.text.toList).1 seen' t' := by
    intro parted
    rw [enters.sightings] at parted ⊢
    obtain ⟨pieces, seen', t', retold⟩ := enters.opened.retold_line enters.accepted parted
    rw [text', bytes, ← retold.flatten, Input.split_lines retold.closed]
    exact ⟨seen', t', retold⟩
  refine ⟨ended, ⟨fun parted => ?_, fun ⟨clean, same⟩ => ?_⟩, fun parted => ?_⟩
  · obtain ⟨seen', t', retold⟩ := retell parted
    have run : again = ⟨t', seen', none⟩ := Scan.lines_eq retold.accepted
    rw [run]
    exact ⟨rfl, retold.same⟩
  · have closed := (Input.newline_not_mem_split r.scan.text.toList).1
    have parted := (Scan.acceptsLines_of_lines clean).parted rfl closed
    exact Sighting.parted_of_met same parted.1
  · obtain ⟨seen', t', retold⟩ := retell parted
    have run : again = ⟨t', seen', none⟩ := Scan.lines_eq retold.accepted
    obtain ⟨level, -, plain, -⟩ := Scan.isResolved_iff.mp enters.resolved
    have agrees : Agrees t.closeLine t' := Scan.openLine_of_code plain ▸ retold.agrees
    have start : t'.codeStart = t.codeStart := congrArg (Option.map Extent.first) agrees.extent
    rw [run, Reading.entry, enters.scan]
    exact ⟨rfl, start, agrees.depth.trans level, agrees.context.trans plain⟩

/-- Separators between brackets, in a raw literal and in a block comment leave the code where it is. The
text of a line comment with a separator in it is a comment and a line of code. -/
theorem read_in_pieces_brackets :
    let spread : List UInt8 := [0x66, 0x28, 0xe2, 0x80, 0xa9, 0x60, 0xe2, 0x80, 0xa9, 0x60, 0x29,
      0x2f, 0x2a, 0xe2, 0x80, 0xa9, 0x2a, 0x2f, 0x0a]
    let commented : List UInt8 := [0x2f, 0x2f, 0x20, 0x78, 0xe2, 0x80, 0xa9, 0x79, 0x0a]
    let r := read {} [] {} (Input.ofBytes spread none)
    let again := Scan.lines {} (Input.split r.scan.text.toList).1
    let r' := read {} [] {} (Input.ofBytes commented none)
    let again' := Scan.lines {} (Input.split r'.scan.text.toList).1
    (Byte.hash ∉ spread ∧ r.failure = none ∧ r.sightings.IsChain Parted ∧
      again.seen.map met = r.sightings.map met ∧ again.scan.codeStart = r.entry.start) ∧
    Byte.hash ∉ commented ∧ r'.failure = none ∧ again'.seen.map met ≠ r'.sightings.map met ∧
      r'.entry.start = none ∧ again'.scan.codeStart = some 5 := by
  intro spread commented r again r' again'
  have hashless : Byte.hash ∉ spread := by decide
  have complete : r.failure = none := by decide +kernel
  have parted : r.sightings.IsChain Parted := by decide +kernel
  obtain ⟨-, same, start⟩ := read_in_pieces_iff {} [] {} spread none hashless complete
  have hashless' : Byte.hash ∉ commented := by decide
  have complete' : r'.failure = none := by decide +kernel
  have joined : ¬ r'.sightings.IsChain Parted := by decide +kernel
  obtain ⟨-, same', -⟩ := read_in_pieces_iff {} [] {} commented none hashless' complete'
  have clean : again'.intrusion = none := by decide +kernel
  exact ⟨⟨hashless, complete, parted, (same.mp parted).2, (start parted).2.1⟩, hashless', complete',
    fun met => joined (same'.mpr ⟨clean, met⟩), by decide +kernel, by decide +kernel⟩

end Policy

end Linewise
