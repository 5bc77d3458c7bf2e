import Mathlib.Algebra.Ring.Int.Defs
import Mathlib.Data.List.Induction
import Mathlib.Order.Bounds.Defs
import Linewise.Proofs.Expecting

/-! A closing bracket with nothing to close is forgotten. So the depth is the greatest surplus of
opening brackets behind some point of the text (`Policy.read_depth`). Brackets in literals and
comments and right behind a tilde are none. -/

namespace Linewise

namespace Byte

def openers : List UInt8 := [0x28, 0x5b, 0x7b]

def bracket? (b : UInt8) : Option Int :=
  if b ∈ openers then some 1 else if b ∈ closers then some (-1) else none

end Byte

namespace Role

theorem mem_openers_iff {b : UInt8} : b ∈ Byte.openers ↔ ofByte b = .opener := by
  constructor
  · intro member
    simp only [Byte.openers, List.mem_cons, List.not_mem_nil, or_false] at member
    rcases member with rfl | rfl | rfl <;> rfl
  · intro opener
    rw [ofByte_eq_ofMark (by rw [opener]; rfl)] at opener
    unfold ofMark at opener
    split at opener <;> first | decide | cases opener

theorem mem_closers_iff {b : UInt8} : b ∈ Byte.closers ↔ ofByte b = .closer := by
  refine ⟨fun member => ?_, mem_closers_of_closer⟩
  simp only [Byte.closers, List.mem_cons, List.not_mem_nil, or_false] at member
  rcases member with rfl | rfl | rfl <;> rfl

theorem delta_nesting (b : UInt8) : (ofByte b).nesting.delta = (Byte.bracket? b).getD 0 := by
  simp only [Byte.bracket?, mem_openers_iff, mem_closers_iff]
  cases ofByte b <;> simp [nesting, Nesting.delta]

end Role

def Sighting.bracket? (s : Sighting) : Option Int :=
  if s.before.countsBrackets then Byte.bracket? s.byte else none

/-- The brackets among some scanned bytes, in order: one for an opening and minus one for a closing bracket. -/
def brackets (seen : List Sighting) : List Int := seen.filterMap Sighting.bracket?

/-- The depth is the greatest sum of the brackets behind some point. Behind all of them the sum is zero. -/
def IsSurplus (brackets : List Int) (depth : Nat) : Prop :=
  IsGreatest {sum | ∃ k ≤ brackets.length, sum = (brackets.drop k).sum} (depth : Int)

theorem Nesting.cast_apply (nesting : Nesting) (depth : Nat) :
    (nesting.apply depth : Int) = max 0 (depth + nesting.delta) := by
  cases nesting <;> simp only [Nesting.apply, Nesting.delta] <;> omega

/-! ## The greatest sum -/

section

variable {brackets : List Int} {depth : Nat}

theorem isSurplus_nil : IsSurplus [] 0 := by
  constructor
  · exact ⟨0, Nat.le_refl 0, rfl⟩
  · rintro sum ⟨k, -, rfl⟩
    simp

/-- With one more bracket each sum changes by it, and the empty one stays. -/
theorem IsSurplus.concat {next : Nat} (surplus : IsSurplus brackets depth) (bracket : Int)
    (clamped : (next : Int) = max 0 (depth + bracket)) : IsSurplus (brackets ++ [bracket]) next := by
  obtain ⟨⟨k, inside, same⟩, greatest⟩ := surplus
  have longer {k : Nat} (inside : k ≤ brackets.length) :
      ((brackets ++ [bracket]).drop k).sum = (brackets.drop k).sum + bracket := by
    rw [List.drop_append_of_le_length inside, List.sum_append, List.sum_singleton]
  have length : (brackets ++ [bracket]).length = brackets.length + 1 := by simp
  constructor
  · -- where the clamp strikes, the empty sum behind the bracket is the greatest
    rcases Int.le_total 0 (depth + bracket) with positive | negative
    · exact ⟨k, by omega, by rw [longer inside, ← same, clamped, Int.max_eq_right positive]⟩
    · refine ⟨(brackets ++ [bracket]).length, Nat.le_refl _, ?_⟩
      rw [clamped, Int.max_eq_left negative, List.drop_length, List.sum_nil]
  · rintro sum ⟨k, inside, rfl⟩
    rcases Nat.lt_or_ge brackets.length k with last | inside
    · rw [List.drop_of_length_le (by omega), List.sum_nil]
      exact Int.natCast_nonneg next
    · have bound := greatest ⟨k, inside, rfl⟩
      rw [longer inside, clamped]
      omega

theorem IsSurplus.pos_iff (surplus : IsSurplus brackets depth) :
    0 < depth ↔ ∃ k, 0 < (brackets.drop k).sum := by
  obtain ⟨⟨k, -, same⟩, greatest⟩ := surplus
  constructor
  · exact fun positive => ⟨k, by omega⟩
  · rintro ⟨k, positive⟩
    rcases Nat.lt_or_ge brackets.length k with beyond | inside
    · simp [List.drop_of_length_le (Nat.le_of_lt beyond)] at positive
    · have bound := greatest ⟨k, inside, rfl⟩
      omega

end

/-! ## Scanned bytes -/

namespace Scan

variable {s t : Scan} {byte : UInt8} {effect : Effect} {bytes : List UInt8} {seen later : List Sighting}

theorem depth_apply_eq (accepted : s.effect byte = .ok effect) :
    ((s.apply byte effect).depth : Int) = max 0 (s.depth + ((s.sighting byte effect).bracket?).getD 0) := by
  have nesting := Context.nesting_of_entry (effect_eq_ok_iff.mp accepted)
  rw [show (s.apply byte effect).depth = effect.nesting.apply s.depth from rfl, Nesting.cast_apply, nesting]
  cases counts : s.context.countsBrackets with
  | true => simp [Sighting.bracket?, sighting, counts, Role.delta_nesting]
  | false => simp [Sighting.bracket?, sighting, counts, Nesting.delta]

theorem isSurplus_apply (surplus : IsSurplus (brackets seen) s.depth)
    (accepted : s.effect byte = .ok effect) :
    IsSurplus (brackets (seen ++ [s.sighting byte effect])) (s.apply byte effect).depth := by
  have depth := depth_apply_eq accepted
  rw [brackets, List.filterMap_append]
  cases counted : (s.sighting byte effect).bracket? with
  | none =>
    rw [counted, Option.getD_none] at depth
    obtain same : (s.apply byte effect).depth = s.depth := by omega
    rw [same, List.filterMap_cons_none counted, List.filterMap_nil, List.append_nil]
    exact surplus
  | some bracket =>
    rw [counted, Option.getD_some] at depth
    rw [List.filterMap_cons_some counted, List.filterMap_nil]
    exact surplus.concat bracket depth

/-- The depth, and that behind every byte seen so far, is what the brackets up to there leave open. -/
structure Counted (seen : List Sighting) (s : Scan) : Prop where
  depth : IsSurplus (brackets seen) s.depth
  each : ∀ front one, front ++ [one] <+: seen → IsSurplus (brackets (front ++ [one])) one.after.depth

theorem counted_empty : Counted [] {} where
  depth := isSurplus_nil
  each := by simp

theorem Counted.apply (counted : Counted seen s) (accepted : s.effect byte = .ok effect) :
    Counted (seen ++ [s.sighting byte effect]) (s.apply byte effect) where
  depth := isSurplus_apply counted.depth accepted
  each := by
    intro front one before
    rcases List.prefix_concat_iff.mp before with whole | earlier
    · obtain ⟨rfl, last⟩ := List.append_inj' whole rfl
      rw [List.singleton_inj.mp last]
      exact isSurplus_apply counted.depth accepted
    · exact counted.each front one earlier

theorem Counted.accepts (counted : Counted seen s) (accepted : Accepts s bytes later t) :
    Counted (seen ++ later) t := by
  induction accepted generalizing seen with
  | nil => rwa [List.append_nil]
  | cons one _ ih =>
    rw [List.append_cons]
    exact ih (counted.apply one)

theorem Counted.congr (counted : Counted seen s) (same : t.depth = s.depth) : Counted seen t :=
  ⟨same ▸ counted.depth, counted.each⟩

end Scan

/-! ## Episodes -/

namespace Policy

variable {p : Policy} {bytes : List UInt8} {sink : Sink} {u : Scan} {back : List (List UInt8)}
  {last : List Scan} {r : Reading}

theorem keeps_counted (p : Policy) : p.Keeps Scan.Counted where
  accepts := fun {_ _ s _ _} counted accepted =>
    (counted.congr (t := { s with lineStart := s.text.size }) rfl).accepts accepted
  closeLine := fun counted => counted.congr rfl
  reopen := fun counted => counted.congr rfl
  record := fun _ counted => counted.congr rfl

theorem Last.atEnd (ended : p.Last (.rest bytes) sink u back last r) (unlimited : sink.IsUnlimited)
    (more : ∀ closed ∈ last, closed.judgement p.settings p.vocabulary ≠ .complete)
    (whole : ∀ i, r.failure ≠ some (.intrusion i)) : r.failure = some (.atEnd r.scan.depth) := by
  cases ended with
  | complete accepted complete _ _ _ => exact absurd complete (more _ List.mem_cons_self)
  | refused _ _ _ failure _ _ => exact absurd failure (whole _)
  | @exhausted next log =>
    rcases finish_cases bytes u next log with ⟨seen, t, -, ended⟩ |
      ⟨front, byte, back, seen, t, intrusion, -, -, -, stopped⟩
    · rw [ended]
      rfl
    · exact absurd (congrArg Reading.failure stopped) (whole _)
  | unasked limited _ _ _ => contradiction

theorem read_atEnd (unlimited : sink.IsUnlimited) {prompt : List UInt8} {input : Input}
    (tail : input.tail = .rest bytes)
    (more : ∀ a ∈ (p.read prompt sink input).reports, a.judgement ≠ .complete)
    (whole : ∀ i, (p.read prompt sink input).failure ≠ some (.intrusion i)) :
    (p.read prompt sink input).failure = some (.atEnd (p.read prompt sink input).scan.depth) := by
  obtain ⟨front, back, ends, last, u, attempts, reports⟩ := read_attempts p prompt sink input
  refine (tail ▸ attempts.last).atEnd unlimited (fun closed member => ?_) whole
  refine more (p.report closed) ?_
  rw [reports]
  exact List.mem_map_of_mem (List.mem_append_right _ member)

/-- Behind every byte of an episode and at its end, however it ends, the depth is the greatest sum of the
brackets behind some point. If no line completes the unit and every literal is whole, the episode ends with
its input: inside brackets exactly if such a sum is positive, and outside otherwise. -/
theorem read_depth (p : Policy) (prompt : List UInt8) (sink : Sink) (input : Input) :
    let r := p.read prompt sink input
    IsSurplus (brackets r.sightings) r.scan.depth ∧
      (∀ front one, front ++ [one] <+: r.sightings →
        IsSurplus (brackets (front ++ [one])) one.after.depth) ∧
      (sink.IsUnlimited → (∃ bytes, input.tail = .rest bytes) →
        (∀ a ∈ r.reports, a.judgement ≠ .complete) → (∀ i, r.failure ≠ some (.intrusion i)) →
        (r.failure = some .openEnd ↔ ∃ k, 0 < ((brackets r.sightings).drop k).sum) ∧
          (r.failure = some .endOfInput ↔ ¬ ∃ k, 0 < ((brackets r.sightings).drop k).sum)) := by
  intro r
  have counted : Scan.Counted r.sightings r.scan :=
    (keeps_counted p).read Scan.counted_empty prompt sink input
  refine ⟨counted.depth, counted.each, ?_⟩
  rintro unlimited ⟨bytes, tail⟩ more whole
  have failure : r.failure = some (.atEnd r.scan.depth) := read_atEnd unlimited tail more whole
  rw [failure, ← counted.depth.pos_iff, Cause.atEnd]
  split <;> simp [*]

/-- A closing bracket before an opening one: their sum is zero, and still one bracket is open at the end. -/
theorem read_depth_unmatched :
    let input := Input.ofBytes [0x29, 0x28, 0x0a] none
    let r := read {} [] {} input
    (∃ bytes, input.tail = .rest bytes) ∧ (∀ a ∈ r.reports, a.judgement ≠ .complete) ∧
      (∀ i, r.failure ≠ some (.intrusion i)) ∧ brackets r.sightings = [-1, 1] ∧
      r.failure = some .openEnd := by
  intro input r
  have tail : input.tail = .rest [] := by decide +kernel
  have more : ∀ a ∈ r.reports, a.judgement ≠ .complete := by decide +kernel
  have ended : r.failure = some .openEnd := by decide +kernel
  have whole : ∀ i, r.failure ≠ some (.intrusion i) := by simp [ended]
  have found : brackets r.sightings = [-1, 1] := by decide +kernel
  obtain ⟨-, -, ends⟩ := read_depth {} [] {} input
  refine ⟨⟨_, tail⟩, more, whole, found, (ends ⟨rfl, rfl⟩ ⟨_, tail⟩ more whole).1.mpr ⟨1, ?_⟩⟩
  rw [show (brackets _) = [-1, 1] from found]
  decide

end Policy

end Linewise
