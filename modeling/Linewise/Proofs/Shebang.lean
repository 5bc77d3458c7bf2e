import Linewise.Proofs.Soundness

/-! The text of a scan is what was scanned, but that each shebang met as code reads as two slashes.
The sightings tell which ones (`Scan.Tells`): a bang that comes right after an undecided hash sign
closes a shebang. -/

namespace Linewise

/-- The bang right after an undecided hash sign. -/
def Sighting.closesShebang (s : Sighting) : Bool := s.before == .hash && s.byte == Byte.bang

namespace Shebang

/-- The offsets of the bangs that close a shebang. -/
def bangs (seen : List Sighting) : List Nat :=
  (seen.filter Sighting.closesShebang).map Sighting.offset

/-- Puts slashes in place of the shebangs whose bangs stand at the given offsets. -/
def rewrite (bangs : List Nat) (source : List UInt8) : List UInt8 :=
  source.mapIdx fun offset byte =>
    if offset ∈ bangs ∨ offset + 1 ∈ bangs then Byte.slash else byte

/-- The text reads as the source, but for a shebang in front of each offset, bang included. -/
structure Rewritten (bangs : List Nat) (source text : List UInt8) : Prop where
  text_eq : text = rewrite bangs source
  spelled : ∀ bang ∈ bangs,
    0 < bang ∧ source[bang - 1]? = some Byte.hash ∧ source[bang]? = some Byte.bang

variable {bangs more : List Nat} {source text : List UInt8}

@[simp] theorem length_rewrite (bangs : List Nat) (source : List UInt8) :
    (rewrite bangs source).length = source.length := by
  simp [rewrite]

theorem Rewritten.length_eq (h : Rewritten bangs source text) : text.length = source.length := by
  rw [h.text_eq, length_rewrite]

theorem Rewritten.lt_length (h : Rewritten bangs source text) {bang : Nat} (member : bang ∈ bangs) :
    bang < source.length :=
  (List.getElem?_eq_some_iff.mp (h.spelled bang member).2.2).1

theorem Rewritten.apart (h : Rewritten bangs source text) {a b : Nat} (ha : a ∈ bangs)
    (hb : b ∈ bangs) (lt : a < b) : a + 1 < b := by
  rcases Nat.lt_or_eq_of_le (Nat.succ_le_of_lt lt) with far | near
  · exact far
  · have bang := (h.spelled a ha).2.2
    have hash := (h.spelled b hb).2.1
    rw [← near, Nat.succ_sub_one, bang] at hash
    exact absurd (Option.some.inj hash) (by decide)

theorem mem_shift_iff {length offset : Nat} :
    offset + length ∈ more.map (· + length) ↔ offset ∈ more := by
  simp

/-- Only the offsets around a byte decide what becomes of it. -/
theorem mapIdx_congr {P Q : Nat → Prop} [DecidablePred P] [DecidablePred Q]
    (same : ∀ i, i < source.length → (P i ↔ Q i)) :
    (source.mapIdx fun i byte => if P i then Byte.slash else byte) =
      source.mapIdx fun i byte => if Q i then Byte.slash else byte := by
  refine List.mapIdx_eq_mapIdx_iff.mpr fun i inside => ?_
  simp only [same i inside]

theorem Rewritten.append {source' text' : List UInt8} (h : Rewritten bangs source text)
    (h' : Rewritten more source' text') :
    Rewritten (bangs ++ more.map (· + source.length)) (source ++ source') (text ++ text') where
  text_eq := by
    rw [h.text_eq, h'.text_eq]
    simp only [rewrite, List.mapIdx_append]
    congr 1
    · refine mapIdx_congr fun i inside => ?_
      -- a bang of the second part has its hash sign there, too
      have here : i ∉ more.map (· + source.length) := by simp; omega
      have next : i + 1 ∉ more.map (· + source.length) := by
        intro member
        obtain ⟨bang, old, shifted⟩ := List.mem_map.mp member
        have := (h'.spelled bang old).1
        omega
      simp [here, next]
    · refine mapIdx_congr fun i _ => ?_
      have here : i + source.length ∉ bangs := fun member => by
        have := h.lt_length member; omega
      have next : i + source.length + 1 ∉ bangs := fun member => by
        have := h.lt_length member; omega
      have moved : i + source.length + 1 ∈ more.map (· + source.length) ↔ i + 1 ∈ more := by
        rw [show i + source.length + 1 = i + 1 + source.length by omega, mem_shift_iff]
      rw [List.mem_append, List.mem_append, moved, mem_shift_iff]
      simp [here, next]
  spelled := by
    intro bang member
    rcases List.mem_append.mp member with first | second
    · obtain ⟨pos, hash, sign⟩ := h.spelled bang first
      have inside := h.lt_length first
      refine ⟨pos, ?_, ?_⟩
      · rw [List.getElem?_append_left (by omega)]; exact hash
      · rw [List.getElem?_append_left inside]; exact sign
    · obtain ⟨old, inside, rfl⟩ := List.mem_map.mp second
      obtain ⟨pos, hash, sign⟩ := h'.spelled old inside
      refine ⟨by omega, ?_, ?_⟩
      · rw [List.getElem?_append_right (by omega), ← hash]; congr 1; omega
      · rw [List.getElem?_append_right (by omega), ← sign]; congr 1; omega

theorem rewritten_self (source : List UInt8) : Rewritten [] source source where
  text_eq := by
    refine List.ext_getElem (by simp) fun i _ _ => ?_
    simp [rewrite]
  spelled := by simp

theorem Rewritten.push (h : Rewritten bangs source text) (byte : UInt8) :
    Rewritten bangs (source ++ [byte]) (text ++ [byte]) := by
  simpa using h.append (rewritten_self [byte])

/-- A bang after a hash sign turns both into slashes. -/
theorem Rewritten.close {front : List UInt8} (h : Rewritten bangs (front ++ [Byte.hash]) text) :
    Rewritten (bangs ++ [front.length + 1]) (front ++ [Byte.hash] ++ [Byte.bang])
      (text.dropLast ++ [Byte.slash, Byte.slash]) where
  text_eq := by
    rw [h.text_eq]
    simp only [rewrite, List.mapIdx_concat, List.dropLast_concat, List.append_assoc]
    have front_same : (front.mapIdx fun i byte =>
        if i ∈ bangs ∨ i + 1 ∈ bangs then Byte.slash else byte) =
        front.mapIdx fun i byte => if i ∈ bangs ++ [front.length + 1] ∨
          i + 1 ∈ bangs ++ [front.length + 1] then Byte.slash else byte := by
      refine mapIdx_congr fun i inside => ?_
      have here : i ≠ front.length + 1 := by omega
      have next : i ≠ front.length := by omega
      simp [here, next]
    have near : 1 + front.length = front.length + 1 := Nat.add_comm ..
    rw [front_same]
    simp [List.mapIdx_append, near]
  spelled := by
    intro bang member
    rcases List.mem_append.mp member with old | new
    · obtain ⟨pos, hash, sign⟩ := h.spelled bang old
      have inside := h.lt_length old
      refine ⟨pos, ?_, ?_⟩
      · rw [List.getElem?_append_left (by omega)]; exact hash
      · rw [List.getElem?_append_left inside]; exact sign
    · obtain rfl := List.mem_singleton.mp new
      simp

theorem bangs_append (seen later : List Sighting) :
    Shebang.bangs (seen ++ later) = Shebang.bangs seen ++ Shebang.bangs later := by
  simp [Shebang.bangs]

theorem bangs_singleton (s : Sighting) :
    Shebang.bangs [s] = if s.closesShebang then [s.offset] else [] := by
  simp only [Shebang.bangs, List.filter_cons, List.filter_nil]
  split <;> rfl

theorem bangs_cons_of_not_closes {s : Sighting} (h : s.closesShebang = false) (seen : List Sighting) :
    Shebang.bangs (s :: seen) = Shebang.bangs seen := by
  simp [Shebang.bangs, h]

end Shebang

/-! ## The text of a scan -/

namespace Scan

open Shebang (Rewritten)

variable {s t : Scan} {byte : UInt8} {effect : Effect} {bytes : List UInt8}
  {seen later : List Sighting}

/-- The sightings tell every byte of the text: which one was scanned at each offset, and whether it
is part of a shebang. -/
structure Tells (s : Scan) (seen : List Sighting) : Prop where
  offsets : seen.map Sighting.offset = List.range s.text.size
  text : Rewritten (Shebang.bangs seen) (seen.map Sighting.byte) s.text.toList

theorem Tells.apart (told : s.Tells seen) :
    (Shebang.bangs seen).Pairwise fun a b => a + 1 < b := by
  have ordered : (Shebang.bangs seen).Pairwise (· < ·) := by
    have all : (seen.map Sighting.offset).Pairwise (· < ·) := by
      rw [told.offsets]; exact List.pairwise_lt_range
    exact all.sublist (List.filter_sublist.map _)
  exact ordered.imp_of_mem fun ha hb lt => told.text.apart ha hb lt

theorem tells_empty : Tells {} [] := ⟨rfl, ⟨rfl, by simp [Shebang.bangs]⟩⟩

theorem shebang_iff (accepted : s.effect byte = .ok effect) :
    effect.shebang = true ↔ (s.sighting byte effect).closesShebang = true := by
  have entry := effect_eq_ok_iff.mp accepted
  simp only [Sighting.closesShebang, sighting, Bool.and_eq_true, beq_iff_eq]
  constructor
  · intro shebang
    obtain ⟨context, role⟩ := Context.hash_bang_of_shebang entry shebang
    exact ⟨context, Role.ofByte_eq_bang_iff.mp role⟩
  · rintro ⟨context, bang⟩
    rw [context, Role.ofByte_eq_bang_iff.mpr bang, Context.effect_hash_bang] at entry
    cases entry
    rfl

/-- A hash sign that is still undecided stands at the end of what was scanned. -/
theorem Tells.source_of_hash (told : s.Tells seen) (last : s.text.back? = some Byte.hash) :
    ∃ front, seen.map Sighting.byte = front ++ [Byte.hash] := by
  have source := told.text.text_eq
  rw [← Array.getLast?_toList, source] at last
  rcases List.eq_nil_or_concat (seen.map Sighting.byte) with none | ⟨front, stop, spelled⟩
  · simp [none, Shebang.rewrite] at last
  · rw [spelled, List.concat_eq_append] at last ⊢
    simp only [Shebang.rewrite, List.mapIdx_concat, List.getLast?_append, List.getLast?_singleton,
      Option.some_or, Option.some.injEq] at last
    split at last
    · exact absurd last (by decide)
    · exact ⟨front, by rw [last]⟩

theorem Tells.apply (told : s.Tells seen) (sound : s.Sound)
    (accepted : s.effect byte = .ok effect) :
    (s.apply byte effect).Tells (seen ++ [s.sighting byte effect]) where
  offsets := by
    rw [size_apply sound accepted, List.range_succ, List.map_append, told.offsets]
    rfl
  text := by
    rw [Shebang.bangs_append, List.map_append]
    by_cases shebang : effect.shebang = true
    · obtain ⟨last, rfl⟩ := back?_of_shebang sound accepted shebang
      obtain ⟨front, spelled⟩ := told.source_of_hash last
      have size : front.length + 1 = s.text.size := by
        simpa [spelled] using told.text.length_eq.symm
      have closes := (shebang_iff accepted).mp shebang
      have closed := (spelled ▸ told.text).close
      rw [text_apply_of_shebang shebang]
      rw [Shebang.bangs_singleton, if_pos closes]
      simpa [sighting, spelled, size] using closed
    · have plain : effect.shebang = false := by simpa using shebang
      rw [text_apply_of_not_shebang plain, Shebang.bangs_singleton,
        if_neg (mt (shebang_iff accepted).mpr shebang)]
      simpa [sighting] using told.text.push byte

theorem Tells.accepts (told : s.Tells seen) (sound : s.Sound)
    (accepted : Accepts s bytes later t) : t.Tells (seen ++ later) := by
  induction accepted generalizing seen with
  | nil => simpa using told
  | cons one _ ih => simpa using ih (told.apply sound one) (sound.apply one)

theorem Accepts.map_byte (accepted : Accepts s bytes seen t) : seen.map Sighting.byte = bytes := by
  induction accepted with
  | nil => rfl
  | cons _ _ ih => simp [sighting, ih]

end Scan

end Linewise
