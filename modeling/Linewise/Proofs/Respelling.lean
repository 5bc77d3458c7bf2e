import Linewise.Proofs.Marks
import Linewise.Proofs.Shebang

/-! Scanned again, the two slashes of a shebang open a line comment in the same place. Only right
after an undecided slash do they make a difference: it was code before the shebang, and opens the
comment itself before the slashes (`Scan.scanned_again`). -/

namespace Linewise

open Shebang (bangs bangs_append bangs_singleton)

namespace Scan

variable {s t u : Scan} {extent : Option Extent} {byte : UInt8} {effect : Effect}
  {bytes more : List UInt8} {seen later : List Sighting}

theorem Accepts.unique {t' : Scan} {seen' : List Sighting} (one : Accepts s bytes seen t)
    (other : Accepts s bytes seen' t') : seen = seen' ∧ t = t' := by
  have same := (run_eq one).symm.trans (run_eq other)
  exact ⟨congrArg Run.seen same, congrArg Run.scan same⟩

/-! ## Line comments -/

theorem apply_comment (level : s.expecting = true → s.depth = 0)
    (comment : s.context = .lineComment) (byte : UInt8) :
    s.apply byte { context := .lineComment } = { s with text := s.text.push byte } := by
  obtain ⟨⟨context, depth, expecting, extent⟩, lineStart, text⟩ := s
  obtain rfl : context = .lineComment := comment
  cases expecting with
  | false => rfl
  | true =>
    obtain rfl : depth = 0 := level rfl
    rfl

theorem accepts_comment (level : s.expecting = true → s.depth = 0)
    (comment : s.context = .lineComment) (bytes : List UInt8) :
    ∃ seen, Accepts s bytes seen { s with text := s.text ++ bytes } ∧ bangs seen = [] := by
  induction bytes generalizing s with
  | nil => exact ⟨[], by simpa using Accepts.nil, rfl⟩
  | cons byte bytes ih =>
    have one : s.effect byte = .ok { context := .lineComment } := by
      rw [effect_eq_ok_iff, comment]
      rfl
    have applied := apply_comment level comment byte
    have level' : (s.apply byte { context := .lineComment }).expecting = true →
        (s.apply byte { context := .lineComment }).depth = 0 := by rwa [applied]
    obtain ⟨seen, rest, none⟩ := ih level' rfl
    have text : s.text.push byte ++ bytes = s.text ++ byte :: bytes := by
      apply Array.ext'
      simp
    refine ⟨s.sighting byte _ :: seen, .cons one ?_, ?_⟩
    · rw [applied] at rest ⊢
      rwa [text] at rest
    · have apart : (s.sighting byte { context := .lineComment }).closesShebang = false := by
        simp [Sighting.closesShebang, sighting, comment]
      rw [Shebang.bangs_cons_of_not_closes apart, none]

/-! ## The first shebang of a line -/

/-- The first shebang of some accepted bytes: they reach a scan `u` before it, which takes the hash
sign and leaves it undecided. -/
structure FirstShebang (s : Scan) (bytes : List UInt8) (seen : List Sighting) (t u : Scan)
    (effect : Effect) (front back : List UInt8) (first rest : List Sighting) : Prop where
  bytes : bytes = front ++ Byte.hash :: Byte.bang :: back
  seen : seen = first ++ rest
  none : bangs first = []
  text : u.text.toList = s.text.toList ++ front
  front : Accepts s front first u
  hash : u.effect Byte.hash = .ok effect
  undecided : effect.context = .hash
  back : Accepts u (Byte.hash :: Byte.bang :: back) rest t

/-- Bytes without a shebang are kept as they are. Otherwise there is a first shebang, unless the bytes
begin with the second half of one. -/
theorem Accepts.shebang_cases (accepted : Accepts s bytes seen t) :
    (bangs seen = [] ∧ t.text.toList = s.text.toList ++ bytes) ∨
      (s.context = .hash ∧ ∃ back, bytes = Byte.bang :: back) ∨
      ∃ u effect front back first rest, FirstShebang s bytes seen t u effect front back first rest := by
  induction accepted with
  | nil => exact .inl ⟨rfl, by simp⟩
  | @cons s t byte effect bytes seen one later ih =>
    by_cases closes : (s.sighting byte effect).closesShebang = true
    · -- the hash sign stands before the bytes, so this is the second half of a shebang
      have here : s.context = .hash ∧ byte = Byte.bang := by
        simpa [Sighting.closesShebang, sighting] using closes
      exact .inr (.inl ⟨here.1, bytes, by rw [here.2]⟩)
    · have apart : (s.sighting byte effect).closesShebang = false := by simpa using closes
      have text : (s.apply byte effect).text = s.text.push byte := text_apply_of_not_shebang
        (Bool.eq_false_iff.mpr fun shebang => closes ((shebang_iff one).mp shebang))
      rcases ih with ⟨none, same⟩ | ⟨hash, back, spelled⟩ |
        ⟨u, next, front, back, first, rest, found⟩
      · left
        rw [Shebang.bangs_cons_of_not_closes apart, none, same, text]
        simp
      · right; right
        have role := (Context.role_of_undecided (effect_eq_ok_iff.mp one)
          (congrArg Context.undecided? hash)).1
        obtain rfl := Role.ofByte_eq_hash_iff.mp role
        exact ⟨s, effect, [], back, [], _, by rw [spelled]; rfl, rfl, rfl, by simp, .nil, one, hash,
          spelled ▸ .cons one later⟩
      · right; right
        refine ⟨u, next, byte :: front, back, _ :: first, rest, ?_, ?_, ?_, ?_,
          .cons one found.front, found.hash, found.undecided, found.back⟩
        · rw [found.bytes]; rfl
        · rw [found.seen]; rfl
        · rw [Shebang.bangs_cons_of_not_closes apart, found.none]
        · rw [found.text, text]; simp

/-! ## Respelling it -/

/-- The marks after a shebang behind `u` and after the slashes in its place. They are alike, unless a
slash stood before: scanned again, that slash is no code. -/
inductive Respelled (u t : Scan) (next : Option Extent) : Prop where
  | alike (apart : u.context ≠ .slash) (alike : Extent.Alike t.lineStart t.extent next)
  | merged (slash : u.context = .slash)
      (marked : t.extent = Extent.mark u.extent (u.text.size - 1))
      (alike : Extent.Alike t.lineStart u.extent next)

def closed (u : Scan) (effect : Effect) : Scan :=
  (u.apply Byte.hash effect).apply Byte.bang { context := .lineComment, shebang := true }

theorem text_closed (plain : effect.shebang = false) :
    (u.closed effect).text = (u.text.push Byte.slash).push Byte.slash := by
  rw [closed, text_apply_of_shebang rfl, text_apply_of_not_shebang plain, Array.pop_push]

theorem accepts_closed (hash : u.effect Byte.hash = .ok effect)
    (undecided : effect.context = .hash) (plain : effect.shebang = false) :
    ∃ seen, Accepts u [Byte.hash, Byte.bang] seen (u.closed effect) ∧
      bangs seen = [u.text.size + 1] := by
  have bang : (u.apply Byte.hash effect).effect Byte.bang =
      .ok { context := .lineComment, shebang := true } := by
    rw [effect_eq_ok_iff, show (u.apply Byte.hash effect).context = .hash from undecided]
    rfl
  refine ⟨_, .cons hash (.cons bang .nil), ?_⟩
  have distinct : (Byte.hash == Byte.bang) = false := by decide
  rw [Shebang.bangs_cons_of_not_closes (by simp [Sighting.closesShebang, sighting, distinct]),
    bangs_singleton, if_pos ((shebang_iff bang).mp rfl)]
  simp [sighting, text_apply_of_not_shebang plain]

/-- A slash before the shebang opens the comment, and the slashes in its place are part of it. -/
theorem respell_after_slash (slash : u.context = .slash) (extent : Option Extent) :
    ∃ seen, Accepts (u.withExtent extent) [Byte.slash, Byte.slash] seen
      ((u.closed { context := .hash, deferred := true }).withExtent extent) := by
  have opens : (u.withExtent extent).effect Byte.slash = .ok { context := .lineComment } := by
    rw [effect_eq_ok_iff, show (u.withExtent extent).context = .slash from slash]
    rfl
  have inside : ((u.withExtent extent).apply Byte.slash { context := .lineComment }).effect
      Byte.slash = .ok { context := .lineComment } := rfl
  have reached := Accepts.cons opens (.cons inside .nil)
  exact ⟨_, reached.reaches_withExtent rfl rfl rfl rfl (text_closed rfl).symm⟩

theorem respell_elsewhere (alike : Extent.Alike u.lineStart u.extent extent)
    (undecided : effect.context = .hash) (plain : effect.shebang = false)
    (slash : u.effect Byte.slash = .ok { effect with context := .slash }) :
    ∃ seen next, Accepts (u.withExtent extent) [Byte.slash, Byte.slash] seen
        ((u.closed effect).withExtent next) ∧
      Extent.Alike u.lineStart (u.closed effect).extent next := by
  have inside : ((u.withExtent extent).apply Byte.slash { effect with context := .slash }).effect
      Byte.slash = .ok { context := .lineComment } := rfl
  have reached := Accepts.cons (show (u.withExtent extent).effect Byte.slash = _ from slash)
    (.cons inside .nil)
  have plain' : ({ effect with context := .slash } : Effect).shebang = false := plain
  have text : (((u.withExtent extent).apply Byte.slash { effect with context := .slash }).apply
      Byte.slash { context := .lineComment }).text = (u.closed effect).text := by
    rw [text_closed plain, text_apply_of_not_shebang rfl, text_apply_of_not_shebang plain']
    rfl
  have expecting : ((u.withExtent extent).apply Byte.slash
      { effect with context := .slash }).expecting = (u.apply Byte.hash effect).expecting := by
    simp only [apply, Status.after, withExtent, undecided]
    rfl
  obtain ⟨next, applied, alike'⟩ :=
    apply_withExtent alike Byte.slash { effect with context := .slash }
  have marks : ((u.withExtent extent).apply Byte.slash { effect with context := .slash }).extent =
      next := by rw [applied]; rfl
  refine ⟨_, _, reached.reaches_withExtent rfl rfl ?_ rfl text, marks ▸ alike'⟩
  exact congrArg (fun e => e && effect.nesting.apply u.depth == 0 && true) expecting

theorem respell_shebang (alike : Extent.Alike u.lineStart u.extent extent)
    (hash : u.effect Byte.hash = .ok effect) (undecided : effect.context = .hash) :
    ∃ (seen seen' : List Sighting) (next : Option Extent),
      Accepts u [Byte.hash, Byte.bang] seen (u.closed effect) ∧ bangs seen = [u.text.size + 1] ∧
      (u.closed effect).text = (u.text.push Byte.slash).push Byte.slash ∧
      Accepts (u.withExtent extent) [Byte.slash, Byte.slash] seen' ((u.closed effect).withExtent next) ∧
      Respelled u (u.closed effect) next := by
  have entry := effect_eq_ok_iff.mp hash
  rcases Context.slash_of_hash entry undecided with ⟨slash, rfl⟩ | ⟨apart, plain, again⟩
  · obtain ⟨seen, both, bang⟩ := accepts_closed hash undecided rfl
    obtain ⟨seen', again⟩ := respell_after_slash slash extent
    exact ⟨seen, seen', extent, both, bang, text_closed rfl, again, .merged slash rfl alike⟩
  · obtain ⟨seen, both, bang⟩ := accepts_closed hash undecided plain
    obtain ⟨seen', next, again, alike'⟩ :=
      respell_elsewhere alike undecided plain (effect_eq_ok_iff.mpr again)
    exact ⟨seen, seen', next, both, bang, text_closed plain, again, .alike apart alike'⟩

/-- Bytes in which the first shebang, if there is one, is respelled. -/
inductive Respells : List UInt8 → List UInt8 → Prop where
  | same (bytes : List UInt8) : Respells bytes bytes
  | shebang (front back : List UInt8) :
      Respells (front ++ Byte.hash :: Byte.bang :: back) (front ++ Byte.slash :: Byte.slash :: back)

theorem Respelled.comment {next : Option Extent} (respelled : Respelled u t next)
    (bytes : List UInt8) : Respelled u { t with text := t.text ++ bytes } next := by
  cases respelled with
  | alike apart alike => exact .alike apart alike
  | merged slash marked alike => exact .merged slash marked alike

theorem FirstShebang.respelled {front back : List UInt8} {first rest : List Sighting}
    (found : FirstShebang s bytes seen t u effect front back first rest) (sound : s.Sound)
    (alike : Extent.Alike s.lineStart s.extent extent) :
    ∃ (seen' : List Sighting) (next : Option Extent),
      t.text.toList = u.text.toList ++ Byte.slash :: Byte.slash :: back ∧
      Accepts (s.withExtent extent) (front ++ Byte.slash :: Byte.slash :: back) seen'
        (t.withExtent next) ∧
      bangs seen = [u.text.size + 1] ∧ t.context = .lineComment ∧ Respelled u t next := by
  obtain ⟨seen₁, middle, before, alike'⟩ := accepts_withExtent alike found.front
  obtain ⟨both, seen₂, next, shebang, bang, text, slashes, respelled⟩ :=
    respell_shebang alike' found.hash found.undecided
  have level := fun expecting =>
    (((sound.accepts found.front).accepts shebang).expecting expecting).1
  obtain ⟨tail, comment, silent⟩ := accepts_comment level rfl back
  obtain ⟨seen₃, comment', -⟩ :=
    accepts_comment (s := (u.closed effect).withExtent next) level rfl back
  obtain ⟨rfl, rfl⟩ := found.back.unique (shebang.append comment)
  refine ⟨seen₁ ++ (seen₂ ++ seen₃), next, ?_, before.append (slashes.append comment'), ?_, rfl,
    respelled.comment back⟩
  · simp [text]
  · rw [found.seen, bangs_append, bangs_append, found.none, bang, silent]
    rfl

/-! ## A slash in front of a shebang -/

theorem Accepts.offset_bounds (sound : s.Sound) (accepted : Accepts s bytes seen t)
    {x : Sighting} (member : x ∈ seen) : s.text.size ≤ x.offset ∧ x.offset < t.text.size := by
  induction accepted with
  | nil => cases member
  | cons one later ih =>
    have size := size_apply sound one
    have grown := later.size (sound.apply one)
    rcases List.mem_cons.mp member with rfl | old
    · simp only [sighting]
      omega
    · have := ih (sound.apply one) old
      omega

theorem Accepts.after_of_last (sound : s.Sound) (accepted : Accepts s bytes seen t) {x : Sighting}
    (member : x ∈ seen) (last : x.offset + 1 = t.text.size) : x.after = t.toStatus := by
  induction accepted with
  | nil => cases member
  | cons one later ih =>
    rcases List.mem_cons.mp member with rfl | old
    · have size := size_apply sound one
      have grown := later.size (sound.apply one)
      simp only [sighting] at last
      cases later with
      | nil => rfl
      | cons _ _ =>
        simp only [List.length_cons] at grown
        omega
    · exact ih (sound.apply one) old last

theorem Accepts.exists_last (sound : s.Sound) (accepted : Accepts s bytes seen t)
    (occupied : s.text.size < t.text.size) : ∃ x ∈ seen, x.offset + 1 = t.text.size := by
  induction accepted with
  | nil => omega
  | @cons s t byte effect bytes seen one later ih =>
    have size := size_apply sound one
    by_cases more : (s.apply byte effect).text.size < t.text.size
    · obtain ⟨x, member, last⟩ := ih (sound.apply one) more
      exact ⟨x, List.mem_cons_of_mem _ member, last⟩
    · have grown := later.size (sound.apply one)
      exact ⟨_, List.mem_cons_self, by simp only [sighting]; omega⟩

end Scan

/-- The sighting is of a slash that was undecided when a shebang came. -/
structure Shebang.Merges (seen : List Sighting) (x : Sighting) : Prop where
  member : x ∈ seen
  slash : x.after.context = .slash
  shebang : x.offset + 2 ∈ Shebang.bangs seen

namespace Scan

variable {s t u : Scan} {extent : Option Extent} {bytes more : List UInt8}
  {seen first rest : List Sighting}

open Shebang (Merges)

theorem merges_iff (sound : s.Sound) (front : Accepts s bytes first u) (back : Accepts u more rest t)
    (bang : bangs (first ++ rest) = [u.text.size + 1]) {x : Sighting} :
    Merges (first ++ rest) x ↔ x ∈ first ∧ x.offset + 1 = u.text.size ∧ u.context = .slash := by
  have sound' := sound.accepts front
  constructor
  · rintro ⟨member, slash, shebang⟩
    rw [bang, List.mem_singleton] at shebang
    have last : x.offset + 1 = u.text.size := by omega
    rcases List.mem_append.mp member with early | late
    · exact ⟨early, last, (front.after_of_last sound early last) ▸ slash⟩
    · have := back.offset_bounds sound' late
      omega
  · rintro ⟨member, last, slash⟩
    have after := front.after_of_last sound member last
    exact ⟨List.mem_append_left _ member, after ▸ slash, by rw [bang]; simp; omega⟩

/-- How the marks of a line that is scanned again compare. They are alike, unless a slash came right
before a shebang: it counted as code, but does not when it is scanned again. -/
inductive Again (t : Scan) (seen : List Sighting) (next : Option Extent) : Prop where
  | alike (apart : ∀ x, ¬ Merges seen x) (alike : Extent.Alike t.lineStart t.extent next)
  | merged (x : Sighting) (merges : Merges seen x) (only : ∀ y, Merges seen y → y.after = x.after)
      (comment : t.context = .lineComment) (here : t.lineStart ≤ x.offset)
      (slash : t.text[x.offset]? = some Byte.slash)
      (marked : t.extent = Extent.mark x.after.extent x.offset)
      (alike : Extent.Alike t.lineStart x.after.extent next)

theorem slash_of_undecided (sound : u.Sound) (slash : u.context = .slash) {back : List UInt8}
    (text : t.text.toList = u.text.toList ++ back) {offset : Nat}
    (last : offset + 1 = u.text.size) :
    t.text[offset]? = some Byte.slash := by
  have found := sound.slash slash
  rw [Array.back?_eq_getElem?, ← last, Nat.add_sub_cancel] at found
  rw [← Array.getElem?_toList, text, List.getElem?_append_left (by simp; omega),
    Array.getElem?_toList, found]

/-- A line as it was scanned, and as it is scanned again from what was handed out for it. -/
theorem scanned_again (sound : s.Sound) (fresh : s.lineStart = s.text.size)
    (settled : s.Settled)
    (alike : Extent.Alike s.lineStart s.extent extent) (accepted : Accepts s bytes seen t) :
    ∃ (again : List UInt8) (seen' : List Sighting) (next : Option Extent),
      Respells bytes again ∧ t.text.toList = s.text.toList ++ again ∧
      Accepts (s.withExtent extent) again seen' (t.withExtent next) ∧ Again t seen next := by
  rcases accepted.shebang_cases with ⟨none, same⟩ | ⟨hash, -⟩ |
    ⟨u, effect, front, back, first, rest, found⟩
  · obtain ⟨seen', next, reached, after⟩ := accepts_withExtent alike accepted
    refine ⟨bytes, seen', next, .same bytes, same, reached, .alike (fun x merges => ?_) after⟩
    simpa [none] using merges.shebang
  · exact absurd hash settled.hash
  · obtain ⟨seen', next, text, reached, bang, comment, respelled⟩ := found.respelled sound alike
    refine ⟨_, seen', next, found.bytes ▸ .shebang front back, ?_, reached, ?_⟩
    · rw [text, found.text, List.append_assoc]
    rw [found.seen] at bang ⊢
    have merges {x : Sighting} := @merges_iff _ _ _ _ _ _ _ sound found.front found.back bang x
    cases respelled with
    | alike apart after => exact .alike (fun x m => apart (merges.mp m).2.2) after
    | merged slash marked after =>
      -- no line begins behind an undecided slash, so the slash was scanned on this one
      have longer : s.text.size < u.text.size := by
        have grown := found.front.size sound
        cases front with
        | nil =>
          obtain ⟨-, rfl⟩ := found.front.unique .nil
          exact absurd slash settled.slash
        | cons byte front => simp only [List.length_cons] at grown; omega
      obtain ⟨x, member, last⟩ := found.front.exists_last sound longer
      have same := found.front.after_of_last sound member last
      have lineStart : t.lineStart = s.text.size := by rw [accepted.lineStart_eq, fresh]
      refine .merged x (merges.mpr ⟨member, last, slash⟩) (fun y m => ?_) comment ?_ ?_ ?_ ?_
      · obtain ⟨member', last', -⟩ := merges.mp m
        rw [same, found.front.after_of_last sound member' last']
      · have := (found.front.offset_bounds sound member).1
        omega
      · exact slash_of_undecided (sound.accepts found.front) slash text last
      · rw [marked, same, ← last, Nat.add_sub_cancel]
      · rw [same]; exact after

end Scan

end Linewise
