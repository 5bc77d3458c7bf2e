import Linewise.Proofs.Lead

/-! When no byte is undecided, a scan goes on from its context, its depth and its
expectation alone (`Scan.bare`), and what comes of it stands behind the text and the marks
there were (`Scan.behind`). -/

namespace Linewise

theorem getElem?_of_begins {short long : Array UInt8} {offset : Nat}
    (extended : short.toList <+: long.toList) (inside : offset < short.size) :
    long[offset]? = short[offset]? := by
  obtain ⟨more, whole⟩ := extended
  rw [← Array.getElem?_toList, ← whole, List.getElem?_append_left (by simpa using inside),
    Array.getElem?_toList]

theorem extract_of_begins {short long : Array UInt8} {stop : Nat} (extended : short.toList <+: long.toList)
    (inside : stop ≤ short.size) : long.extract 0 stop = short.extract 0 stop := by
  obtain ⟨more, whole⟩ := extended
  apply Array.ext'
  rw [Array.toList_extract, Array.toList_extract, ← whole, List.extract_eq_take_drop,
    List.extract_eq_take_drop, List.drop_zero, List.drop_zero,
    List.take_append_of_le_length (by simpa using inside)]

def Sighting.behind (base : Scan) (x : Sighting) : Sighting :=
  { x with
    offset := x.offset + base.text.size
    after := { x.after with
      extent := Extent.join base.extent (x.after.extent.map (Extent.shift base.text.size)) } }

namespace Scan

/-- The scan without its text and its marks. -/
def bare (s : Scan) : Scan := { s with extent := none, lineStart := 0, text := #[] }

/-- The scan as it reads behind the text and the marks of another. -/
def behind (base s : Scan) : Scan :=
  { s with
    extent := Extent.join base.extent (s.extent.map (Extent.shift base.text.size))
    lineStart := base.lineStart
    text := base.text ++ s.text }

def Grounded (s : Scan) : Prop := s.context = .slash ∨ s.context = .hash → 0 < s.text.size

variable {base s t u : Scan} {byte : UInt8} {effect : Effect} {bytes : List UInt8}
  {seen : List Sighting}

@[simp] theorem behind_bare (s : Scan) : s.behind s.bare = s := by
  simp [behind, bare, Extent.join]

theorem settled_empty : Settled {} := ⟨nofun, nofun⟩

theorem Settled.grounded_bare (settled : s.Settled) : s.bare.Grounded := by
  rintro (slash | hash)
  · exact absurd slash settled.slash
  · exact absurd hash settled.hash

theorem grounded_apply (s : Scan) (byte : UInt8) (effect : Effect) : (s.apply byte effect).Grounded := by
  intro _
  simp only [apply]
  split <;> simp

theorem size_apply_of_grounded (grounded : s.Grounded) (accepted : s.effect byte = .ok effect) :
    (s.apply byte effect).text.size = s.text.size + 1 := by
  by_cases shebang : effect.shebang = true
  · have hash := (Context.hash_bang_of_shebang (effect_eq_ok_iff.mp accepted) shebang).1
    have := grounded (.inr hash)
    rw [text_apply_of_shebang shebang]
    simp only [Array.size_push, Array.size_pop]
    omega
  · rw [text_apply_of_not_shebang (by simpa using shebang), Array.size_push]

theorem text_behind_apply (base : Scan) (grounded : s.Grounded) (accepted : s.effect byte = .ok effect) :
    ((base.behind s).apply byte effect).text = base.text ++ (s.apply byte effect).text := by
  by_cases shebang : effect.shebang = true
  · have hash := (Context.hash_bang_of_shebang (effect_eq_ok_iff.mp accepted) shebang).1
    have occupied : s.text ≠ #[] := Array.ne_empty_of_size_pos (grounded (.inr hash))
    rw [text_apply_of_shebang shebang, text_apply_of_shebang shebang]
    simp only [behind, Array.pop_append_of_ne_empty occupied, Array.push_append]
  · have plain : effect.shebang = false := by simpa using shebang
    rw [text_apply_of_not_shebang plain, text_apply_of_not_shebang plain]
    simp only [behind, Array.push_append]

theorem extent_behind_apply (base : Scan) (grounded : s.Grounded)
    (accepted : s.effect byte = .ok effect) :
    ((base.behind s).apply byte effect).extent = Extent.join base.extent
      ((s.apply byte effect).extent.map (Extent.shift base.text.size)) := by
  have size : (base.behind s).text.size = s.text.size + base.text.size := by
    simp [behind, Nat.add_comm]
  have late : effect.deferred = true →
      (base.behind s).text.size - 1 = s.text.size - 1 + base.text.size := by
    intro deferred
    have := grounded (Context.undecided_of_deferred (effect_eq_ok_iff.mp accepted) deferred)
    omega
  simp only [apply, Status.after]
  cases deferred : effect.deferred <;> cases counts : effect.counts <;>
    simp_all [behind, Extent.join_mark]

theorem apply_behind (base : Scan) (grounded : s.Grounded) (accepted : s.effect byte = .ok effect) :
    (base.behind s).apply byte effect = base.behind (s.apply byte effect) := by
  have text := text_behind_apply base grounded accepted
  have extent := extent_behind_apply base grounded accepted
  generalize lhs : (base.behind s).apply byte effect = next at text extent
  obtain ⟨⟨_, _, _, _⟩, _, _⟩ := next
  simp only [apply, Status.after] at lhs
  cases lhs
  simp only at text extent
  rw [text, extent]
  rfl

theorem sighting_behind (base : Scan) (grounded : s.Grounded) (accepted : s.effect byte = .ok effect) :
    (base.behind s).sighting byte effect = (s.sighting byte effect).behind base := by
  have status := congrArg toStatus (apply_behind base grounded accepted)
  simp only [sighting, Sighting.behind]
  rw [show (base.behind s).text.size = s.text.size + base.text.size by simp [behind, Nat.add_comm]]
  refine congrArg (Sighting.mk _ _ _) ?_
  simpa [apply, behind, Nat.add_comm] using status

theorem accepted_behind (base : Scan) (accepted : s.effect byte = .ok effect) :
    (base.behind s).effect byte = .ok effect := by
  have entry := effect_eq_ok_iff.mp accepted
  exact effect_eq_ok_iff.mpr entry

theorem refused_behind (base : Scan) {intrusion : Intrusion}
    (refused : s.effect byte = .error intrusion) :
    (base.behind s).effect byte = .error (intrusion.shift base.text.size) := by
  obtain ⟨literal, entry, rfl⟩ := effect_eq_error_iff.mp refused
  refine effect_eq_error_iff.mpr ⟨literal, entry, ?_⟩
  simp [Intrusion.shift, behind, Nat.add_comm]

theorem Accepts.behind (base : Scan) (grounded : s.Grounded) (accepted : Accepts s bytes seen t) :
    Accepts (base.behind s) bytes (seen.map (Sighting.behind base)) (base.behind t) := by
  induction accepted with
  | nil => exact .nil
  | cons one _ ih =>
    rw [List.map_cons, ← sighting_behind base grounded one]
    refine .cons (accepted_behind base one) ?_
    rw [apply_behind base grounded one]
    exact ih (grounded_apply _ _ _)

/-- What a scan does when no byte is undecided is done from the bare scan, behind its text. -/
theorem Accepts.bare (settled : s.Settled) (accepted : Accepts s bytes seen t) :
    ∃ z seen', Accepts s.bare bytes seen' z ∧ t = s.behind z ∧ seen = seen'.map (Sighting.behind s) := by
  rcases run_cases s.bare bytes with ⟨seen', z, taken, -⟩ |
    ⟨front, byte, back, seen', z, intrusion, rfl, taken, refused, -⟩
  · have again := taken.behind s settled.grounded_bare
    rw [behind_bare] at again
    have same := (run_eq accepted).symm.trans (run_eq again)
    exact ⟨z, seen', taken, congrArg Run.scan same, congrArg Run.seen same⟩
  · have again := taken.behind s settled.grounded_bare
    rw [behind_bare] at again
    have run := (run_eq accepted).symm.trans (run_append again (byte :: back))
    rw [run_cons_of_error (refused_behind s refused)] at run
    cases congrArg Run.intrusion run

/-! ## What a base keeps -/

/-- The scan `t` begins with the text of `s`, and starts its code where `s` does or behind it. -/
structure Extends (s t : Scan) : Prop where
  text : s.text.toList <+: t.text.toList
  start : ∀ start, s.codeStart = some start ↔ t.codeStart = some start ∧ start < s.text.size

theorem Sound.start_lt (sound : s.Sound) {start : Nat} (found : s.codeStart = some start) :
    start < s.text.size := by
  obtain ⟨extent, marked, rfl⟩ := Option.map_eq_some_iff.mp found
  exact (sound.marks extent marked).2.1.lt

theorem Extends.trans (one : s.Extends t) (two : t.Extends u) : s.Extends u where
  text := one.text.trans two.text
  start := by
    intro start
    have longer : s.text.size ≤ t.text.size := by simpa using one.text.length_le
    rw [one.start, two.start, and_assoc]
    exact and_congr_right fun _ => and_iff_right_of_imp fun inside => by omega

theorem extends_behind (sound : base.Sound) (z : Scan) : base.Extends (base.behind z) where
  text := by simp [behind]
  start := by
    intro start
    cases old : base.extent with
    | none =>
      -- what comes behind the base starts behind its text
      have later : (base.behind z).codeStart = some start → base.text.size ≤ start := by
        intro found
        simp only [Status.codeStart, behind, old] at found
        cases now : z.extent <;> simp [now, Extent.join, Extent.shift] at found
        omega
      have blank : base.codeStart = none := by simp [Status.codeStart, old]
      refine iff_of_false (by simp [blank]) ?_
      rintro ⟨found, inside⟩
      have := later found
      omega
    | some extent =>
      have same : (base.behind z).codeStart = base.codeStart := by
        simp only [Status.codeStart, behind, old]
        cases z.extent <;> rfl
      rw [same]
      exact (and_iff_left_of_imp sound.start_lt).symm

theorem Accepts.extends (sound : s.Sound) (settled : s.Settled) (accepted : Accepts s bytes seen t) :
    s.Extends t := by
  obtain ⟨z, -, -, rfl, -⟩ := accepted.bare settled
  exact extends_behind sound z

end Scan

end Linewise
