import Linewise.Proofs.Conversation
import Linewise.Proofs.Prompting

/-! The console as it is typed. Whoever hands it line after line, and the bytes in front of the end
in the end, reads what `Console.run` writes, and sees its exit code. -/

namespace Linewise.Console

/-- A response leads to an exit by what is typed. All that is written on the way is listed. -/
inductive Leads : Response → List Typed → Array UInt8 → Nat → Prop where
  | exit {text : Array UInt8} {code : Nat} : Leads (.exit text code) [] text code
  | listen {text later : Array UInt8} {scan : Scan} {typed : Typed} {more : List Typed} {code : Nat}
      (rest : Leads (react scan typed) more later code) :
      Leads (.listen text scan) (typed :: more) (text ++ later) code

/-- The first things that an input delivers. Its end is delivered over and over. -/
def delivered : Nat → Input → List Typed
  | 0, _ => []
  | count + 1, ⟨body :: bodies, tail⟩ => .line body :: delivered count ⟨bodies, tail⟩
  | count + 1, ⟨[], .rest bytes⟩ => .last bytes :: delivered count ⟨[], .rest []⟩
  | _ + 1, ⟨[], .cut _⟩ => []

variable {sink : Sink} {input : Input} {readings : List Reading} {bytes : List UInt8}
  {bodies : List (List UInt8)} {code : Nat}

theorem behind_spent (count : Nat) : Input.behind count ⟨[], .rest []⟩ = ⟨[], .rest []⟩ := by
  cases count <;> rfl

theorem delivered_add (first second : Nat) (bodies : List (List UInt8)) (bytes : List UInt8) :
    delivered (first + second) ⟨bodies, .rest bytes⟩ =
      delivered first ⟨bodies, .rest bytes⟩ ++
        delivered second (Input.behind first ⟨bodies, .rest bytes⟩) := by
  induction first generalizing bodies bytes with
  | zero => rw [Nat.zero_add]; rfl
  | succ first ih =>
    rw [Nat.add_right_comm]
    cases bodies with
    | cons body bodies => exact congrArg (.line body :: ·) (ih bodies bytes)
    | nil =>
      have rest := ih [] []
      rw [behind_spent] at rest
      exact congrArg (.last bytes :: ·) rest

/-! ## Prompts -/

theorem prompting_deliver (unlimited : sink.IsUnlimited) (bytes : List UInt8) :
    policy.prompting (Sink.deliver bytes) sink = .ok () (sink.after [bytes]) := by
  have holds : sink.Holds [bytes] := Sink.unlimited_eq_self unlimited ▸ sink.holds_unlimited [bytes]
  exact Sink.deliver_of_holds holds

theorem shown_deliver (bytes : List UInt8) : shown (Sink.deliver bytes) = bytes.toArray := by
  have unlimited : Sink.IsUnlimited {} := ⟨rfl, rfl⟩
  rw [shown, prompting_deliver unlimited]
  simp [Sink.after]

theorem prompting_adds (unlimited : sink.IsUnlimited) (bytes : List UInt8) :
    ∃ next, policy.prompting (Sink.deliver bytes) sink = .ok () next ∧ next.IsUnlimited ∧
      next.taken = sink.taken ++ shown (Sink.deliver bytes) := by
  have passes := prompting_deliver unlimited bytes
  have still := (Sink.passes_prompting policy (Sink.passes_deliver bytes)).unlimited passes unlimited
  refine ⟨_, passes, still, ?_⟩
  rw [shown_deliver]
  apply Array.ext'
  simp [Sink.after]

/-! ## One episode -/

theorem react_refused {s : Scan} {body : List UInt8} {intrusion : Intrusion}
    (outcome : (policy.line s body).outcome = .error intrusion) :
    react s (.line body) = respond (policy.line s body).scan.entry (some (.intrusion intrusion)) := by
  simp only [react, outcome]

theorem react_complete {s : Scan} {body : List UInt8}
    (outcome : (policy.line s body).outcome = .ok .complete) :
    react s (.line body) = respond (policy.line s body).scan.entry none := by
  simp only [react, outcome]

theorem react_open {s : Scan} {body : List UInt8} {judgement : Judgement}
    (outcome : (policy.line s body).outcome = .ok judgement) (more : judgement ≠ .complete) :
    react s (.line body) = .listen (shown (Dots.deliver (policy.line s body).scan.openLine.depth))
      (policy.line s body).scan.openLine := by
  cases judgement with
  | complete => contradiction
  | unfinished | dangling => simp only [react, outcome]

theorem react_last (s : Scan) (bytes : List UInt8) (sink : Sink) (log : Array Event) :
    react s (.last bytes) = respond (Policy.finish (.rest bytes) s sink log).entry
      (Policy.finish (.rest bytes) s sink log).failure := by
  simp only [react, Policy.finish]
  split <;> rfl

/-- What is typed during an episode leads through it, with dots behind each line but the last, to what is
written behind it. -/
def Speaks (scan : Scan) (sink : Sink) (input : Input) (r : Reading) : Prop :=
  ∃ attempts dots, r.input = Input.behind attempts input ∧ r.sink.taken = sink.taken ++ dots ∧
    ∀ (text : Array UInt8) {more : List Typed} {later : Array UInt8} {code : Nat},
      Leads (respond r.entry r.failure) more later code →
      Leads (.listen text scan) (delivered attempts input ++ more) (text ++ (dots ++ later)) code

theorem speaks_of_react {s : Scan} {r : Reading} (left : r.input = Input.behind 1 input)
    (sink' : r.sink = sink) {typed : Typed} (first : delivered 1 input = [typed])
    (reacts : react s typed = respond r.entry r.failure) : Speaks s sink input r := by
  refine ⟨1, #[], left, by rw [sink', Array.append_empty], fun text more later code leads => ?_⟩
  rw [first, Array.empty_append]
  exact .listen (reacts ▸ leads)

theorem follow_speaks (unlimited : sink.IsUnlimited) (bodies : List (List UInt8)) (bytes : List UInt8)
    (s : Scan) (log : Array Event) :
    Speaks s sink ⟨bodies, .rest bytes⟩ (policy.follow (.rest bytes) bodies s sink log) := by
  induction bodies generalizing s sink log with
  | nil =>
    exact speaks_of_react (Policy.input_finish ..) Policy.sink_finish rfl (react_last s bytes sink log)
  | cons body bodies ih =>
    cases outcome : (policy.line s body).outcome with
    | error intrusion =>
      rw [Policy.follow_refused outcome]
      exact speaks_of_react rfl rfl rfl (react_refused outcome)
    | ok judgement =>
      by_cases complete : judgement = .complete
      · subst complete
        rw [Policy.follow_complete outcome]
        exact speaks_of_react rfl rfl rfl (react_complete outcome)
      · obtain ⟨next, asked, still, taken⟩ :=
          prompting_adds unlimited (Dots.row (Dots.width (policy.line s body).scan.openLine.depth))
        rw [← Dots.deliver_eq] at asked taken
        have goes : policy.follow (.rest bytes) (body :: bodies) s sink log =
            policy.follow (.rest bytes) bodies (policy.line s body).scan.openLine next
              (log ++ (policy.line s body).events) := by
          cases judgement with
          | complete => contradiction
          | unfinished | dangling => simp only [Policy.follow, outcome, asked]
        obtain ⟨attempts, dots, left, shown', leads⟩ := ih still (policy.line s body).scan.openLine
          (log ++ (policy.line s body).events)
        rw [goes]
        -- the dots are what is shown before the next line is typed
        refine ⟨attempts + 1, _, left, by rw [shown', taken, Array.append_assoc],
          fun text more later code ends => ?_⟩
        have rest := leads (shown (Dots.deliver (policy.line s body).scan.openLine.depth)) ends
        rw [← react_open outcome complete] at rest
        rw [Array.append_assoc]
        exact .listen rest

/-! ## The whole conversation -/

theorem Leads.prepend {text later : Array UInt8} {scan : Scan} {typed : List Typed}
    (leads : Leads (.listen text scan) typed later code) (front : Array UInt8) :
    Leads (.listen (front ++ text) scan) typed (front ++ later) code := by
  cases leads with
  | listen rest =>
    rw [← Array.append_assoc]
    exact .listen rest

theorem read_leads (unlimited : sink.IsUnlimited) (tail : input.tail = .rest bytes) :
    let r := policy.read prompt sink.emptied input
    ∃ attempts, r.input = Input.behind attempts input ∧
      ∀ {more : List Typed} {later : Array UInt8} {code : Nat},
        Leads (respond r.entry r.failure) more later code →
        Leads opening (delivered attempts input ++ more) (r.sink.taken ++ later) code := by
  intro r
  obtain ⟨bodies, _⟩ := input
  obtain rfl := tail
  obtain ⟨next, asked, still, taken⟩ := prompting_adds (Sink.isUnlimited_emptied unlimited) prompt
  have reads : r = policy.follow (.rest bytes) bodies {} next #[] := by
    simp only [r, Policy.read, asked]
  obtain ⟨attempts, dots, left, shown', leads⟩ := follow_speaks still bodies bytes {} #[]
  rw [← reads] at left shown' leads
  refine ⟨attempts, left, fun {more later code} ends => ?_⟩
  have whole := leads (shown (Sink.deliver prompt)) ends
  rw [shown', taken, Sink.emptied, Array.empty_append, Array.append_assoc]
  exact whole

theorem Converses.leads (converses : Converses sink input readings code) (unlimited : sink.IsUnlimited)
    (tail : input.tail = .rest bytes) :
    ∃ attempts text, Leads opening (delivered attempts input) text code ∧
      text.toList = readings.flatMap fun r => (written r).toList := by
  induction converses generalizing bytes with
  | @stop sink input r code reads stops =>
    obtain ⟨attempts, -, leads⟩ := read_leads unlimited tail
    rw [← reads] at leads
    have exits : Leads (respond r.entry r.failure) [] (reply r.entry r.failure).text code := by
      simp only [respond, stops]
      exact .exit
    have whole := leads exits
    rw [List.append_nil] at whole
    exact ⟨attempts, _, whole, by simp [written]⟩
  | @next sink input r readings code reads goes _ ih =>
    obtain ⟨attempts, left, leads⟩ := read_leads unlimited tail
    obtain ⟨-, bytes', tail'⟩ := continues_or_closes (Sink.isUnlimited_emptied unlimited) tail
    have still := Policy.isUnlimited_read policy prompt input (Sink.isUnlimited_emptied unlimited)
    rw [← reads] at left leads tail' still
    obtain ⟨more, text, later, spelled⟩ := ih still tail'
    have listens : Leads (respond r.entry r.failure) (delivered more r.input)
        ((reply r.entry r.failure).text ++ text) code := by
      simp only [respond, goes]
      exact later.prepend _
    have whole := leads listens
    obtain ⟨bodies, _⟩ := input
    obtain rfl := tail
    rw [left, ← delivered_add] at whole
    exact ⟨attempts + more, _, whole, by simp [written, spelled]⟩

/-- Typed line by line, an input gives what it gives as a whole. -/
theorem run_leads (text : List UInt8) :
    ∃ attempts, Leads opening (delivered attempts (Input.ofBytes text none))
      (run (Input.ofBytes text none)).text (run (Input.ofBytes text none)).exit := by
  obtain ⟨earlier, last, ends⟩ : ∃ earlier last, Ends {} (Input.ofBytes text none) earlier last :=
    exists_ends ⟨rfl, rfl⟩ rfl
  obtain ⟨exit, written⟩ := ends.run
  obtain ⟨attempts, whole, leads, spelled⟩ := ends.converses.leads ⟨rfl, rfl⟩ rfl
  rw [exit, Array.toList_inj.mp (written.trans spelled.symm)]
  exact ⟨attempts, leads⟩

end Linewise.Console
