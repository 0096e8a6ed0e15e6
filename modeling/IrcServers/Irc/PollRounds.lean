import IrcServers.Irc.PollTable
import IrcServers.Scanning

/-!
# The rounds of the poll loop

`Server::run` calls `poll` and then goes through the poll list by index.  It holds
a reference to the list itself, which the handlers change on the way:
`acceptConnection` appends to it, and `closeConnection` erases from it, so that the
descriptor behind an erased one can be passed over though it is readable.

Here the scan is a machine of its own over the labelled machine of `Loop`: it
decides in which order descriptors are served.  Its runs are runs of that machine
(`pollRun_steps`), and its scan is one of `Scanning`, so nobody who is passed over
is forgotten.
-/

namespace Irc

/-- `Server::run` in the middle of its inner loop.  An element of `_fds` is a
descriptor with the `POLLIN` bit of its `revents`.  The body reads `fds[i]` only
before it calls a handler, so `i` counts an element as done from there on. -/
structure PollRun where
  world : World
  fds : List (Fd × Bool)
  i : Nat

/-- What the loop does next.  `poll` reports any descriptors; `again` is an
`accept` that finds nobody waiting. -/
inductive PollAction where
  | poll (ready : Fd → Bool)
  | pass
  | again
  | act (a : Action)

/-- A new round begins. -/
def PollAction.isPoll : PollAction → Bool
  | .poll _ => true
  | .pass | .again | .act _ => false

/-- `_fds` when the polled descriptors have changed: `removeFd` erases the others,
and `addFd` appends the new ones with no events. -/
def updatedFds (fds : List (Fd × Bool)) (pollFds : List Fd) : List (Fd × Bool) :=
  (fds.filter fun entry => entry.1 ∈ pollFds) ++
    (pollFds.filter fun fd => fd ∉ fds.map Prod.fst).map fun fd => (fd, false)

/-- Part of a handler, with the loop at index `i` afterwards. -/
def PollRun.act (r : PollRun) (a : Action) (i : Nat) : Option PollRun :=
  (step r.world a).map fun next =>
    { world := next, fds := updatedFds r.fds next.srv.pollFds, i := i }

/-- One step of the loop.  A handler runs to its end before the index moves on,
and the bot's socket is not read as a client's. -/
def pollStep (r : PollRun) : PollAction → Option PollRun
  | .poll ready =>
      if r.world.reading = none ∧ r.fds.length ≤ r.i then
        some { r with fds := r.fds.map fun entry => (entry.1, ready entry.1), i := 0 }
      else none
  | .pass =>
      if r.world.reading = none then
        match r.fds[r.i]? with
        | some (_, false) => some { r with i := r.i + 1 }
        | _ => none
      else none
  | .again =>
      if r.world.reading = none ∧ r.fds[r.i]? = some (r.world.srv.serverSocket, true) then
        some { r with i := r.i + 1 }
      else none
  | .act (.accept fd ip port) =>
      if r.fds[r.i]? = some (r.world.srv.serverSocket, true) then
        r.act (.accept fd ip port) (r.i + 1)
      else none
  | .act (.receive fd results) =>
      if r.fds[r.i]? = some (fd, true) ∧ fd ≠ r.world.srv.botSocket then
        r.act (.receive fd results) (r.i + 1)
      else none
  | .act (.command env) => r.act (.command env) r.i

/-- The loop before its first `poll`. -/
def PollStart (r : PollRun) : Prop :=
  Start r.world ∧ r.fds = r.world.srv.pollFds.map (fun fd => (fd, false)) ∧ r.i = r.fds.length

/-- Runs of the loop. -/
abbrev PollSteps (trace : Run.Trace PollRun PollAction) (r : PollRun) : Prop :=
  Run.Steps pollStep PollStart trace r

/-- The steps of the labelled machine that a step of the loop stands for. -/
def actionsOf (_ : PollRun) : PollAction → List Action
  | .act a => [a]
  | .poll _ | .pass | .again => []

/-- The descriptor whose handler a step begins. -/
def servedBy (r : PollRun) : PollAction → List Fd
  | .again | .act (.accept _ _ _) => [r.world.srv.serverSocket]
  | .act (.receive fd _) => [fd]
  | .poll _ | .pass | .act (.command _) => []

/-- The change of the list by a step of the labelled machine. -/
def changeOf (r : PollRun) (a : Action) : List (Scanning.Event Fd) :=
  match step r.world a with
  | some next => [.change (fun fd => fd ∈ next.srv.pollFds)
      (next.srv.pollFds.filter fun fd => fd ∉ r.fds.map Prod.fst)]
  | none => []

/-- A step of the loop as events of a scan. -/
def scanEvents (r : PollRun) : PollAction → List (Scanning.Event Fd)
  | .poll ready => [.mark ready]
  | .pass => [.pass]
  | .again => [.serve r.world.srv.serverSocket]
  | .act (.accept fd ip port) =>
      .serve r.world.srv.serverSocket :: changeOf r (.accept fd ip port)
  | .act (.receive fd results) => .serve fd :: changeOf r (.receive fd results)
  | .act (.command env) => changeOf r (.command env)

/-- The loop as a scan of its list. -/
def PollRun.scan (r : PollRun) : Scanning.Scan Fd where
  entries := r.fds
  index := r.i

variable {r next : PollRun} {a : Action} {trace recent : Run.Trace PollRun PollAction}

/-- A step of the loop that works on a handler is one of the labelled machine. -/
theorem pollStep_act (h : pollStep r (.act a) = some next) :
    step r.world a = some next.world ∧ next.fds = updatedFds r.fds next.world.srv.pollFds := by
  have hact : ∀ {i}, r.act a i = some next →
      step r.world a = some next.world ∧ next.fds = updatedFds r.fds next.world.srv.pollFds := by
    intro i hact
    obtain ⟨w, hw, rfl⟩ := Option.map_eq_some_iff.mp hact
    exact ⟨hw, rfl⟩
  cases a with
  | accept fd ip port =>
      simp only [pollStep] at h
      split at h
      · exact hact h
      · cases h
  | receive fd results =>
      simp only [pollStep] at h
      split at h
      · exact hact h
      · cases h
  | command env => exact hact h

/-- A step of the loop that calls no handler leaves the server alone, and so does
its list but for the marks. -/
theorem pollStep_idle {p : PollAction} (h : pollStep r p = some next)
    (hidle : ∀ a, p ≠ .act a) :
    next.world = r.world ∧ next.fds.map Prod.fst = r.fds.map Prod.fst := by
  cases p with
  | act a => exact (hidle a rfl).elim
  | poll ready =>
      simp only [pollStep] at h
      split at h
      · cases h
        exact ⟨rfl, by simp⟩
      · cases h
  | pass =>
      simp only [pollStep] at h
      split at h
      · split at h
        · cases h
          exact ⟨rfl, rfl⟩
        · cases h
      · cases h
  | again =>
      simp only [pollStep] at h
      split at h
      · cases h
        exact ⟨rfl, rfl⟩
      · cases h

/-- One step of the loop as steps of the labelled machine. -/
theorem pollStep_steps {p : PollAction} (h : pollStep r p = some next) :
    Run.perform step (actionsOf r p) r.world = some next.world := by
  by_cases hact : ∃ a, p = .act a
  · obtain ⟨a, rfl⟩ := hact
    simp [actionsOf, Run.perform, (pollStep_act h).1]
  · have hidle : ∀ a, p ≠ .act a := fun a heq => hact ⟨a, heq⟩
    rw [(pollStep_idle h hidle).1]
    cases p with
    | act a => exact (hidle a rfl).elim
    | poll ready => rfl
    | pass => rfl
    | again => rfl

/-- **The loop runs the labelled machine.**  Every run of the loop is, handler by
handler, a run of the machine that serves descriptors in any order. -/
theorem pollRun_steps (run : PollSteps trace r) :
    ∃ steps, Steps steps r.world ∧
      (steps.map Prod.snd).reverse = Run.eventsOf actionsOf trace := by
  obtain ⟨first, hfirst, run⟩ := run.first
  obtain ⟨w, hperform, hw⟩ := run.refines (fun r w => r.world = w) actionsOf
    (fun r p next w hw hstep => ⟨next.world, hw ▸ pollStep_steps hstep, rfl⟩) rfl
  have hstart : Steps [] first.world := .nil hfirst.1
  obtain ⟨steps, hsteps, hactions⟩ := hstart.perform hperform
  rw [List.append_nil] at hsteps
  exact ⟨steps, hw ▸ hsteps, hactions⟩

/-- What one step does to the list of polled descriptors. -/
theorem pollFds_step {w next : World} (h : step w a = some next) :
    next.srv.pollFds = w.srv.pollFds ∨
      (∃ f, next.srv.pollFds = w.srv.pollFds.filter (· ≠ f)) ∨
      ∃ fd, fd ∉ w.srv.openFds ∧ next.srv.pollFds = w.srv.pollFds ++ [fd] := by
  have hentered : (w.entered a).pollFds = w.srv.pollFds := by
    unfold World.entered
    split
    · split
      · exact Tables.index_pollFds _ _ _
      · rfl
    · rfl
  rcases (step_move h).closes_or with ⟨f, _, htables⟩ |
    ⟨_, ⟨fd, ip, port, hfresh, htables⟩ | htables | ⟨env, fd, line, lines, _, _, heffect⟩⟩
  · have hpoll : next.srv.pollFds = ((w.entered a).closeConnection f).pollFds := by rw [htables]
    rw [hpoll, ← hentered]
    unfold Tables.closeConnection
    split
    · exact Or.inr (Or.inl ⟨f, rfl⟩)
    · exact Or.inl rfl
  · have hpoll : next.srv.pollFds = w.srv.pollFds ++ [fd] := by
      rw [htables, Tables.acceptConnection_eq]
    exact Or.inr (Or.inr ⟨fd, hfresh, hpoll⟩)
  · exact Or.inl (by rw [htables])
  · have hsame : next.srv.pollFds = _ := (Tables.sameFds_effect heffect).pollFds
    exact Or.inl (hsame.trans (Tables.index_pollFds _ _ _))

/-- The polled descriptors stay distinct. -/
theorem nodup_step {w next : World} (h : w.srv.pollFds.Nodup) (hopen : w.srv.PollsOpen)
    (hstep : step w a = some next) : next.srv.pollFds.Nodup := by
  rcases pollFds_step hstep with heq | ⟨f, heq⟩ | ⟨fd, hfresh, heq⟩
  · exact heq ▸ h
  · exact heq ▸ h.filter _
  · rw [heq]
    refine List.nodup_append.mpr ⟨h, List.nodup_singleton fd, ?_⟩
    intro f hf k hk
    rw [List.mem_singleton.mp hk]
    exact fun hfd => hfresh (hfd ▸ hopen f hf)

/-- The old descriptors that are still polled, followed by the new ones, are the
polled descriptors. -/
theorem updated_pollFds {w next : World} (hopen : w.srv.PollsOpen) (h : step w a = some next) :
    w.srv.pollFds.filter (fun fd => fd ∈ next.srv.pollFds) ++
      next.srv.pollFds.filter (fun fd => fd ∉ w.srv.pollFds) = next.srv.pollFds := by
  rcases pollFds_step h with heq | ⟨f, heq⟩ | ⟨fd, hfresh, heq⟩
  · rw [heq]
    have hnone : w.srv.pollFds.filter (fun fd => fd ∉ w.srv.pollFds) = [] := by
      simp
    rw [hnone, List.append_nil, List.filter_eq_self]
    simp
  · rw [heq]
    have hnone : (w.srv.pollFds.filter (· ≠ f)).filter (fun fd => fd ∉ w.srv.pollFds) = [] := by
      rw [List.filter_eq_nil_iff]
      intro k hk
      simpa using (List.mem_filter.mp hk).1
    rw [hnone, List.append_nil]
    refine List.filter_congr fun k hk => ?_
    simp [hk]
  · have hnew : fd ∉ w.srv.pollFds := fun hin => hfresh (hopen fd hin)
    have hold : w.srv.pollFds.filter (fun k => k ∈ next.srv.pollFds) = w.srv.pollFds := by
      rw [List.filter_eq_self]
      intro k hk
      simp [heq, hk]
    rw [hold, heq, List.filter_append]
    simp [hnew]

/-- The list is that of the polled descriptors, which are distinct and open. -/
structure PollRun.InStep (r : PollRun) : Prop where
  fds : r.fds.map Prod.fst = r.world.srv.pollFds
  nodup : r.world.srv.pollFds.Nodup
  isOpen : r.world.srv.PollsOpen

/-- The poll list and the tables start in step. -/
theorem inStep_pollStart (h : PollStart r) : r.InStep := by
  obtain ⟨hstart, hfds, -⟩ := h
  refine ⟨by simp [hfds, Function.comp_def], ?_, pollsOpen_start hstart⟩
  obtain ⟨password, host, serverSocket, botSocket, _, hworld⟩ := hstart
  simp [hworld, initial]

/-- The keys of the updated list. -/
theorem map_updatedFds (fds : List (Fd × Bool)) (pollFds : List Fd) :
    (updatedFds fds pollFds).map Prod.fst =
      (fds.map Prod.fst).filter (fun fd => fd ∈ pollFds) ++
        pollFds.filter (fun fd => fd ∉ fds.map Prod.fst) := by
  simp [updatedFds, List.filter_map, Function.comp_def]

/-- They stay in step. -/
theorem PollRun.InStep.step {p : PollAction} (h : r.InStep) (hstep : pollStep r p = some next) :
    next.InStep := by
  by_cases hact : ∃ a, p = .act a
  · obtain ⟨a, rfl⟩ := hact
    obtain ⟨hworld, hfds⟩ := pollStep_act hstep
    have hkeys : next.fds.map Prod.fst = next.world.srv.pollFds := by
      rw [hfds, map_updatedFds, h.fds, updated_pollFds h.isOpen hworld]
    exact ⟨hkeys, nodup_step h.nodup h.isOpen hworld, pollsOpen_step h.isOpen hworld⟩
  · obtain ⟨hworld, hkeys⟩ := pollStep_idle hstep fun a heq => hact ⟨a, heq⟩
    exact ⟨by rw [hkeys, hworld, h.fds], hworld ▸ h.nodup, hworld ▸ h.isOpen⟩

/-- The part of a handler, as a change of the scanned table. -/
theorem changeOf_perform (h : r.InStep) {i : Nat}
    (hnext : r.act a i = some next) :
    Run.perform Scanning.step (changeOf r a) { r.scan with index := i } = some next.scan := by
  obtain ⟨w, hw, rfl⟩ := Option.map_eq_some_iff.mp hnext
  have hkeys : (Scanning.Scan.change { r.scan with index := i } (fun fd => fd ∈ w.srv.pollFds)
      (w.srv.pollFds.filter fun fd => fd ∉ r.fds.map Prod.fst)).keys = w.srv.pollFds := by
    rw [Scanning.Scan.keys_change]
    have hold : Scanning.Scan.keys { r.scan with index := i } = r.world.srv.pollFds := h.fds
    rw [hold, h.fds]
    exact updated_pollFds h.isOpen hw
  have hnodup := nodup_step h.nodup h.isOpen hw
  simp only [changeOf, hw, Run.perform, Scanning.step, hkeys, if_pos hnodup]
  rfl

/-- **The loop is a scan.**  One step of the loop as events of the scan. -/
theorem scan_step {p : PollAction} (h : r.InStep) (hstep : pollStep r p = some next) :
    Run.perform Scanning.step (scanEvents r p) r.scan = some next.scan := by
  cases p with
  | poll ready =>
      simp only [pollStep] at hstep
      split at hstep
      · rename_i hover
        cases hstep
        simp [scanEvents, Run.perform, Scanning.step, PollRun.scan, hover.2, Scanning.Scan.mark]
      · cases hstep
  | pass =>
      simp only [pollStep] at hstep
      split at hstep
      · split at hstep
        · rename_i hentry
          cases hstep
          simp [scanEvents, Run.perform, Scanning.step, PollRun.scan, hentry]
        · cases hstep
      · cases hstep
  | again =>
      simp only [pollStep] at hstep
      split at hstep
      · rename_i hentry
        cases hstep
        simp [scanEvents, Run.perform, Scanning.step, PollRun.scan, hentry.2]
      · cases hstep
  | act a =>
      cases a with
      | accept fd ip port =>
          simp only [pollStep] at hstep
          split at hstep
          · rename_i hentry
            have hserve : Scanning.step r.scan (.serve r.world.srv.serverSocket) =
                some { r.scan with index := r.i + 1 } := by
              simp [Scanning.step, PollRun.scan, hentry]
            rw [scanEvents, Run.perform, hserve]
            exact changeOf_perform h hstep
          · cases hstep
      | receive fd results =>
          simp only [pollStep] at hstep
          split at hstep
          · rename_i hentry
            have hserve : Scanning.step r.scan (.serve fd) =
                some { r.scan with index := r.i + 1 } := by
              simp [Scanning.step, PollRun.scan, hentry.1]
            rw [scanEvents, Run.perform, hserve]
            exact changeOf_perform h hstep
          · cases hstep
      | command env => exact changeOf_perform h hstep

/-- Runs of the loop as runs of the scan. -/
theorem scan_run {first : PollRun} (h : first.InStep)
    (run : Run.Steps pollStep (· = first) recent r) :
    Run.perform Scanning.step (Run.eventsOf scanEvents recent) first.scan = some r.scan := by
  obtain ⟨t, hperform, -, ht⟩ := run.refines (fun r t => r.InStep ∧ r.scan = t) scanEvents
    (fun r p next t ht hstep => by
      obtain ⟨hr, rfl⟩ := ht
      exact ⟨next.scan, scan_step hr hstep, hr.step hstep, rfl⟩) ⟨h, rfl⟩
  exact ht ▸ hperform

/-- Every reachable state of the loop is in step. -/
theorem inStep_of_run (run : PollSteps trace r) : r.InStep :=
  run.invariant PollRun.InStep (fun _ => inStep_pollStart) fun _ _ _ => PollRun.InStep.step

/-- The descriptors whose handlers were begun in a stretch of a run, in order. -/
def servedIn (recent : Run.Trace PollRun PollAction) : List Fd := Run.eventsOf servedBy recent

/-- The rounds of a stretch that begin with `fd` reported readable. -/
def readyRounds (fd : Fd) (recent : Run.Trace PollRun PollAction) : Nat :=
  recent.countP fun entry =>
    match entry.2 with
    | .poll ready => ready fd
    | .pass | .again | .act _ => false

/-- A change of the poll list serves nobody. -/
theorem served_changeOf (r : PollRun) (a : Action) : Scanning.served (changeOf r a) = [] := by
  unfold changeOf
  split <;> rfl

/-- Nor does it mark anybody. -/
theorem marksOf_changeOf (fd : Fd) (r : PollRun) (a : Action) :
    Scanning.marksOf fd (changeOf r a) = 0 := by
  unfold changeOf
  split <;> rfl

/-- What the scan serves is what the loop serves. -/
theorem served_scanEvents (recent : Run.Trace PollRun PollAction) :
    Scanning.served (Run.eventsOf scanEvents recent) = servedIn recent := by
  induction recent with
  | nil => rfl
  | cons entry recent ih =>
      obtain ⟨r, p⟩ := entry
      rw [servedIn, Run.eventsOf, Run.eventsOf, Scanning.served_append, ih, servedIn]
      congr 1
      cases p with
      | poll ready => rfl
      | pass => rfl
      | again => rfl
      | act a => cases a <;> simp [scanEvents, servedBy, Scanning.served, served_changeOf]

/-- The marks of the scan are the reports of `poll`. -/
theorem marksOf_scanEvents (fd : Fd) (recent : Run.Trace PollRun PollAction) :
    Scanning.marksOf fd (Run.eventsOf scanEvents recent) = readyRounds fd recent := by
  induction recent with
  | nil => rfl
  | cons entry recent ih =>
      obtain ⟨r, p⟩ := entry
      rw [Run.eventsOf, Scanning.marksOf_append, ih, readyRounds, readyRounds, List.countP_cons]
      congr 1
      cases p with
      | poll ready => simp [scanEvents, Scanning.marksOf]
      | pass => rfl
      | again => rfl
      | act a => cases a <;> simp [scanEvents, Scanning.marksOf, marksOf_changeOf]

/-- What stays polled stays in the scanned table. -/
theorem stays_of_throughout {first : PollRun} {fd : Fd}
    (run : Run.Steps pollStep (· = first) recent r)
    (h : Run.Throughout (fun r => fd ∈ r.world.srv.pollFds) recent r) :
    Scanning.Stays fd (Run.eventsOf scanEvents recent) := by
  induction run with
  | nil hstart => intro keeps more hmem; cases hmem
  | @cons recent r p next run hstep ih =>
      have hbefore := ih ⟨h.2 _ List.mem_cons_self,
        fun entry hmem => h.2 entry (List.mem_cons_of_mem _ hmem)⟩
      have hchange : ∀ a, p = .act a → ∀ keeps more,
          .change keeps more ∈ changeOf r a → keeps fd = true := by
        rintro a rfl keeps more hmem
        rw [changeOf, (pollStep_act hstep).1] at hmem
        cases List.mem_singleton.mp hmem
        exact decide_eq_true h.1
      intro keeps more hmem
      rcases List.mem_append.mp hmem with hmem | hmem
      · exact hbefore keeps more hmem
      · cases p with
        | poll ready => cases List.mem_singleton.mp hmem
        | pass => cases List.mem_singleton.mp hmem
        | again => cases List.mem_singleton.mp hmem
        | act a =>
            refine hchange a rfl keeps more ?_
            cases a with
            | accept fd ip port => simpa [scanEvents] using hmem
            | receive fd results => simpa [scanEvents] using hmem
            | command env => exact hmem

/-- A stretch of the loop without a `poll` is one of the scan in one round. -/
theorem sameRound_of_noPoll (h : ∀ entry ∈ recent, entry.2.isPoll = false) :
    Scanning.SameRound (Run.eventsOf scanEvents recent) := by
  induction recent with
  | nil => intro marks hmem; cases hmem
  | cons entry recent ih =>
      obtain ⟨r, p⟩ := entry
      have hchange : ∀ a marks, .mark marks ∉ changeOf r a := by
        intro a marks hmem
        unfold changeOf at hmem
        split at hmem
        · cases List.mem_singleton.mp hmem
        · cases hmem
      intro marks hmem
      rcases List.mem_append.mp hmem with hmem | hmem
      · exact ih (fun entry hin => h entry (List.mem_cons_of_mem _ hin)) marks hmem
      · cases p with
        | poll ready => cases h _ List.mem_cons_self
        | pass => cases List.mem_singleton.mp hmem
        | again => cases List.mem_singleton.mp hmem
        | act a =>
            refine hchange a marks ?_
            cases a with
            | accept fd ip port => simpa [scanEvents] using hmem
            | receive fd results => simpa [scanEvents] using hmem
            | command env => exact hmem

/-- The loop before its first `poll`, with listening socket 3. -/
theorem pollStart_pw : PollStart ⟨initial "pw".toList [] 3 4, [(3, false)], 1⟩ :=
  ⟨start_pw, rfl, rfl⟩

/-- The loop takes two connections, at descriptors 5 and 6. -/
def takesTwo : List PollAction :=
  [.poll (· = 3), .act (.accept 5 "10.0.0.1".toList 40000), .pass,
   .poll (· = 3), .act (.accept 6 "10.0.0.2".toList 40000), .pass, .pass]

/-- **One round.**  After a `poll`, the loop serves only descriptors it has reported,
each once and in the order of the list.  By the end of the round it has served every
one of them, unless that one or one before it in the list has been closed in it. -/
theorem ready_served_in_order {past : Run.Trace PollRun PollAction} {before after first : PollRun}
    {ready : Fd → Bool} (run : PollSteps past before)
    (hpoll : pollStep before (.poll ready) = some first)
    (hround : Run.Steps pollStep (· = first) recent after)
    (hnopoll : ∀ entry ∈ recent, entry.2.isPoll = false) :
    List.Sublist (servedIn recent) (before.world.srv.pollFds.filter ready) ∧
      (after.fds.length ≤ after.i → ∀ (earlier : List Fd) (fd : Fd),
        earlier ++ [fd] <+: before.world.srv.pollFds → ready fd = true →
        (∀ k ∈ earlier ++ [fd],
          Run.Throughout (fun r => k ∈ r.world.srv.pollFds) recent after) →
        fd ∈ servedIn recent) := by
  have hbefore := inStep_of_run run
  have hfirst := hbefore.step hpoll
  have hscan := scan_run hfirst hround
  constructor
  · have hsub := Scanning.served_sublist hscan (sameRound_of_noPoll hnopoll)
    have hahead : first.scan.ahead = before.world.srv.pollFds.filter ready := by
      simp only [pollStep] at hpoll
      split at hpoll
      · cases hpoll
        rw [← hbefore.fds]
        simp [Scanning.Scan.ahead, PollRun.scan, List.filter_map, Function.comp_def]
      · cases hpoll
    rw [served_scanEvents, hahead] at hsub
    exact (List.sublist_append_left _ _).trans hsub
  · intro hover earlier fd hprefix hready hstay
    have hmark : Scanning.step before.scan (.mark ready) = some first.scan := by
      simpa [scanEvents, Run.perform] using scan_step hbefore hpoll
    have hall : Run.perform Scanning.step (.mark ready :: Run.eventsOf scanEvents recent)
        before.scan = some after.scan := by
      rw [Run.perform, hmark]
      exact hscan
    have hkeys : before.scan.keys = before.world.srv.pollFds := hbefore.fds
    have hmem := Scanning.served_of_stay hall (hkeys ▸ hbefore.nodup) (hkeys ▸ hprefix) hready
      hover fun k hk => stays_of_throughout hround (hstay k hk)
    rw [← served_scanEvents]
    exact Scanning.mem_served.mpr hmem

/-- Two clients are readable in one round, and both are served. -/
theorem ready_served_in_order_two : ∃ past before first recent after,
    PollSteps past before ∧ pollStep before (.poll (· ≠ 3)) = some first ∧
      Run.Steps pollStep (· = first) recent after ∧
      List.Sublist (servedIn recent) [5, 6] ∧ 6 ∈ servedIn recent := by
  obtain ⟨past, before, run, htest⟩ := Run.exists_steps_of_record pollStep pollStart_pw takesTwo
    (fun _ before => (pollStep before (.poll (· ≠ 3))).any fun first =>
      (Run.record pollStep [.pass, .act (.receive 5 [.again]), .act (.receive 6 [.again])]
        ([], first)).any fun recorded =>
          before.world.srv.pollFds = [3, 5, 6] ∧ recorded.2.fds.length ≤ recorded.2.i ∧
          recorded.2.world.srv.pollFds = [3, 5, 6] ∧
          (∀ entry ∈ recorded.1, entry.1.world.srv.pollFds = [3, 5, 6]) ∧
          ∀ entry ∈ recorded.1, entry.2.isPoll = false)
    (by decide +kernel)
  obtain ⟨first, hpoll, htest⟩ := (Option.any_eq_true _ _).mp htest
  obtain ⟨⟨recent, after⟩, hrecorded, htest⟩ := (Option.any_eq_true _ _).mp htest
  obtain ⟨hbefore, hover, hlast, hall, hnopoll⟩ := of_decide_eq_true htest
  have hnil : Run.Steps pollStep (· = first) [] first := .nil rfl
  have hround := hnil.record hrecorded
  obtain ⟨hsub, hserved⟩ := ready_served_in_order run hpoll hround hnopoll
  rw [hbefore] at hsub hserved
  refine ⟨past, before, first, recent, after, run, hpoll, hround, by simpa using hsub, ?_⟩
  refine hserved hover [3, 5] 6 (List.prefix_refl _) (by decide) fun k hk => ⟨?_, ?_⟩
  · change k ∈ after.world.srv.pollFds
    rw [show after.world.srv.pollFds = _ from hlast]
    exact hk
  · intro entry hmem
    exact (hall entry hmem).symm ▸ hk

/-- **Bounded waiting.**  A descriptor that stays polled without being served is passed
over in at most as many rounds that report it as there are descriptors before it in
the list; one more may be under way. -/
theorem bounded_waiting {past : Run.Trace PollRun PollAction} {first last : PollRun} {fd : Fd}
    (run : PollSteps past first) (more : Run.Steps pollStep (· = first) recent last)
    (hpolled : Run.Throughout (fun r => fd ∈ r.world.srv.pollFds) recent last)
    (hunserved : fd ∉ servedIn recent) :
    readyRounds fd recent ≤ first.world.srv.pollFds.idxOf fd + 1 ∧
      (last.fds.length ≤ last.i →
        readyRounds fd recent ≤ first.world.srv.pollFds.idxOf fd) := by
  have hfirst := inStep_of_run run
  have hscan := scan_run hfirst more
  have hkeys : first.scan.keys = first.world.srv.pollFds := hfirst.fds
  have hin : fd ∈ first.scan.keys := hkeys ▸ more.throughout_first hpolled
  have hserve : .serve fd ∉ Run.eventsOf scanEvents recent := by
    rw [← Scanning.mem_served, served_scanEvents]
    exact hunserved
  have hstays := stays_of_throughout more hpolled
  have hnodup : first.scan.keys.Nodup := hkeys ▸ hfirst.nodup
  rw [← hkeys, ← marksOf_scanEvents]
  refine ⟨Scanning.marks_le hscan hnodup hin hserve hstays, fun hover => ?_⟩
  have hwaits := Scanning.waits hscan hnodup hin hserve hstays
  have hpassed : ¬ last.scan.Ahead fd := by
    simp [Scanning.Scan.Ahead, PollRun.scan, List.drop_eq_nil_of_le hover]
  rw [if_neg hpassed] at hwaits
  omega

/-- The client at descriptor 5 hangs up, and the one behind it is passed over. -/
theorem bounded_waiting_passed : ∃ past first recent last,
    PollSteps past first ∧ Run.Steps pollStep (· = first) recent last ∧
      servedIn recent = [5] ∧ 1 ≤ readyRounds 6 recent ∧ readyRounds 6 recent ≤ 2 := by
  obtain ⟨past, first, run, htest⟩ := Run.exists_steps_of_record pollStep pollStart_pw takesTwo
    (fun _ first => (Run.record pollStep [.poll (· ≠ 3), .pass, .act (.receive 5 [.closed])]
        ([], first)).any fun recorded =>
          first.world.srv.pollFds.idxOf 6 = 2 ∧ recorded.2.fds.length ≤ recorded.2.i ∧
          6 ∈ recorded.2.world.srv.pollFds ∧
          (∀ entry ∈ recorded.1, 6 ∈ entry.1.world.srv.pollFds) ∧
          servedIn recorded.1 = [5] ∧ readyRounds 6 recorded.1 = 1)
    (by decide +kernel)
  obtain ⟨⟨recent, last⟩, hrecorded, htest⟩ := (Option.any_eq_true _ _).mp htest
  obtain ⟨hplace, hover, hlast, hall, hserved, hrounds⟩ := of_decide_eq_true htest
  have hnil : Run.Steps pollStep (· = first) [] first := .nil rfl
  have more := hnil.record hrecorded
  have hunserved : (6 : Fd) ∉ servedIn recent := by
    rw [hserved]
    decide
  have hbound := bounded_waiting run more ⟨hlast, hall⟩ hunserved
  rw [hplace] at hbound
  exact ⟨past, first, recent, last, run, more, hserved, Nat.le_of_eq hrounds.symm,
    hbound.2 hover⟩

end Irc
