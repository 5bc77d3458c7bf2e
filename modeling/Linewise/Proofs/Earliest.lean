import Linewise.Proofs.Completion

/-! Reading decides on the lines it has taken, and on nothing behind them. After any fewer of them
the unit is still open, so an entry ends as early as it can (`Policy.read_takes_no_more`). -/

namespace Linewise

namespace Input

variable {text front back : List UInt8}

theorem flatten_lines (whole : text = [] ∨ text.getLast? = some Byte.newline) :
    ((split text).1.map terminated).flatten = text := by
  have pieces := flatten_split text
  have closed := (newline_not_mem_split text).2
  rcases List.eq_nil_or_concat (split text).2 with none | ⟨rest, last, found⟩
  · rw [none, List.append_nil] at pieces
    exact pieces
  · rw [found, List.concat_eq_append] at pieces closed
    rw [← pieces] at whole
    rcases whole with empty | ended
    · simp at empty
    · rw [← List.append_assoc, List.getLast?_concat] at ended
      cases ended
      simp at closed

theorem split_prefix {bodies : List (List UInt8)} (closed : ∀ body ∈ bodies, Byte.newline ∉ body)
    (whole : front = [] ∨ front.getLast? = some Byte.newline)
    (before : front <+: (bodies.map terminated).flatten) : (split front).1 <+: bodies := by
  obtain ⟨back, spelled⟩ := before
  have lines := split_lines_append (newline_not_mem_split front).1 back
  rw [flatten_lines whole, spelled, split_lines closed] at lines
  exact ⟨_, (congrArg Prod.fst lines).symm⟩

end Input

namespace Policy

variable {p : Policy} {s t u : Scan} {body : List UInt8} {bodies front back : List (List UInt8)}
  {tail : Input.Tail} {sink : Sink} {log : Array Event} {seen last : List Sighting}

theorem read_of_completes_append (prompt : List UInt8) (unlimited : sink.IsUnlimited)
    (closed : ∀ body ∈ bodies, Byte.newline ∉ body) (completes : p.Completes {} bodies seen u)
    (more : List UInt8) (outage : Option Outage) :
    let r := p.read prompt sink (Input.ofBytes ((bodies.map Input.terminated).flatten ++ more) outage)
    r.failure = none ∧ r.entry = u.entry ∧ r.input = Input.ofBytes more outage := by
  intro r
  have input : Input.ofBytes ((bodies.map Input.terminated).flatten ++ more) outage =
      ⟨bodies ++ (Input.ofBytes more outage).lines, (Input.ofBytes more outage).tail⟩ := by
    simp only [Input.ofBytes, Input.split_lines_append closed]
  obtain ⟨none, scan, left, -⟩ := read_of_completes prompt unlimited completes
    (Input.ofBytes more outage).lines (Input.ofBytes more outage).tail
  rw [← input] at none scan left
  exact ⟨none, congrArg Scan.entry scan, left⟩

theorem read_of_exhausted {part : List UInt8} (prompt : List UInt8) (unlimited : sink.IsUnlimited)
    (whole : part = [] ∨ part.getLast? = some Byte.newline)
    (opened : p.StaysOpen {} (Input.split part).1 seen u) :
    let r := p.read prompt sink (Input.ofBytes part none)
    r.failure = some (.atEnd u.depth) ∧ r.entry = u.entry := by
  intro r
  have input : Input.ofBytes part none = ⟨(Input.split part).1, .rest []⟩ := by
    have lines := Input.split_lines (Input.newline_not_mem_split part).1
    rw [Input.flatten_lines whole] at lines
    simp only [Input.ofBytes, congrArg Prod.snd lines]
    rfl
  obtain ⟨next, free, reads⟩ := read_eq_follow p prompt (Input.ofBytes part none) unlimited
  have same : r = _ := reads
  rw [same, input]
  exact follow_of_exhausted opened free

theorem entry_of_extends {part : List UInt8} (opened : p.StaysOpen {} (Input.split part).1 seen u)
    (whole : part = [] ∨ part.getLast? = some Byte.newline) (extended : u.Extends t) :
    u.text.toList = t.text.toList.take (Separator.replace part).bytes.length ∧
      u.codeStart = t.codeStart.filter (· < (Separator.replace part).bytes.length) := by
  have size := opened.size
  rw [Input.flatten_lines whole] at size
  refine ⟨?_, ?_⟩
  · rw [← size, ← Array.length_toList]
    exact List.prefix_iff_eq_take.mp extended.text
  · refine Option.ext fun start => ?_
    rw [extended.start, Option.filter_eq_some_iff, size, decide_eq_true_iff]

/-- An entry ends with the newline of a line, and reads the same whatever follows it. An input that ends
behind fewer of its lines fails at its end, inside brackets or not, with the part of the entry that these
lines make up: its text, and the start of the code if that lies in it. -/
theorem read_takes_no_more (p : Policy) (prompt : List UInt8) (sink : Sink) (text : List UInt8)
    (outage : Option Outage)
    (complete : (p.read prompt sink (Input.ofBytes text outage)).failure = none) :
    let r := p.read prompt sink (Input.ofBytes text outage)
    ∃ taken rest, text = taken ++ rest ∧ r.input = Input.ofBytes rest outage ∧
      taken.getLast? = some Byte.newline ∧
      ∀ (prompt' : List UInt8) (sink' : Sink), sink'.IsUnlimited →
        (∀ (more : List UInt8) (outage' : Option Outage),
          let r' := p.read prompt' sink' (Input.ofBytes (taken ++ more) outage')
          r'.failure = none ∧ r'.entry = r.entry ∧ r'.input = Input.ofBytes more outage') ∧
        ∀ part, part <+: taken → part ≠ taken → part = [] ∨ part.getLast? = some Byte.newline →
          let r' := p.read prompt' sink' (Input.ofBytes part none)
          ∃ seen u, p.StaysOpen {} (Input.split part).1 seen u ∧
            r'.failure = some (if 0 < u.depth then .openEnd else .endOfInput) ∧
            r'.entry.text.toList = r.entry.text.toList.take (Separator.replace part).bytes.length ∧
            r'.entry.start = r.entry.start.filter (· < (Separator.replace part).bytes.length) := by
  intro r
  obtain ⟨bodies, back, cut, completes, input⟩ := read_completes complete
  change (Input.split text).1 = bodies ++ back at cut
  have closed : ∀ body ∈ bodies, Byte.newline ∉ body := fun body member =>
    (Input.newline_not_mem_split text).1 body (cut ▸ List.mem_append_left _ member)
  obtain ⟨rest, whole, left⟩ := Input.ofBytes_suffix cut outage
  refine ⟨_, rest, whole, input.trans left, ?_, fun prompt' sink' unlimited => ⟨?_, ?_⟩⟩
  · rcases List.eq_nil_or_concat bodies with none | ⟨front, last, found⟩
    · exact absurd none completes.ne_nil
    · simp [found, Input.terminated]
  · exact read_of_completes_append prompt' unlimited closed completes
  · intro part before proper ended r'
    obtain ⟨later, rfl⟩ := Input.split_prefix closed ended before
    have fewer : later ≠ [] := by
      rintro rfl
      rw [List.append_nil, Input.flatten_lines ended] at proper
      exact proper rfl
    -- `m` is the scan that the shorter input ends with; the other lines only extend it
    obtain ⟨first, second, m, -, opened, rest'⟩ := completes.split fewer
    have extended := rest'.extends (opened.sound Scan.sound_empty) (opened.settled Scan.settled_empty)
    obtain ⟨failed, entry⟩ := read_of_exhausted prompt' unlimited ended opened
    obtain ⟨text', start⟩ := entry_of_extends opened ended extended
    exact ⟨first, m, opened, failed, entry ▸ text', entry ▸ start⟩

/-- A call over two lines is the same entry with another name behind it. Its first line alone fails inside
brackets, with the code starting where it does in the entry. -/
theorem read_takes_no_more_call :
    let text : List UInt8 := [0x66, 0x28, 0x0a, 0x29, 0x0a, 0x78]
    let call : List UInt8 := [0x66, 0x28, 0x0a, 0x29, 0x0a]
    let r := read {} [] {} (Input.ofBytes text none)
    let other := read {} [] {} (Input.ofBytes (call ++ [0x79, 0x0a]) none)
    let cut := read {} [] {} (Input.ofBytes [0x66, 0x28, 0x0a] none)
    r.failure = none ∧ other.entry = r.entry ∧ other.input = Input.ofBytes [0x79, 0x0a] none ∧
      cut.failure = some .openEnd ∧ cut.entry.text.toList = r.entry.text.toList.take 3 ∧
      cut.entry.start = some 0 := by
  intro text call r other cut
  have complete : r.failure = none := by decide +kernel
  obtain ⟨taken, rest, whole, left, -, same⟩ := read_takes_no_more {} [] {} text none complete
  obtain rfl : [0x78] = rest := by
    have bytes := congrArg Input.toBytes left
    rw [Input.toBytes_ofBytes] at bytes
    rw [← bytes]
    decide +kernel
  obtain rfl : call = taken := by
    have front : call ++ [0x78] = taken ++ [0x78] := whole
    exact List.append_cancel_right front
  obtain ⟨longer, shorter⟩ := same [] {} ⟨rfl, rfl⟩
  obtain ⟨-, entry, input⟩ := longer [0x79, 0x0a] none
  obtain ⟨-, u, -, -, cutText, cutStart⟩ :=
    shorter [0x66, 0x28, 0x0a] (by decide) (by decide) (.inr rfl)
  refine ⟨complete, entry, input, by decide +kernel, cutText, ?_⟩
  rw [cutStart]
  decide +kernel

end Policy

end Linewise
