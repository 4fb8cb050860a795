import Pvos.Socksrv.Chat

/-!
# The verdicts that the clients display

The texts of a client fall into batches: what had arrived when the server read.
The invariant says of each client that the replies on their way and on its
stdout are the verdicts on its batches, in order, and that what the server has
not read is the rest of its texts.  Everything a batch leaves in the static
buffer is zeroed, so it does not matter whose batch was served before.
-/

namespace Pvos.Socksrv

open Pvos.Support Pvos.Checksum Pvos.Readline

/-! ## One client -/

section Client

/-- The server never has more than a buffer with a terminator to read. -/
def KeepsUp (waiting : List UInt8) (text : Text) : Prop :=
  waiting.length + text.length ≤ 511

/-- The server has read everything when the next text is generated. -/
def WaitsForVerdict (waiting : List UInt8) (_ : Text) : Prop :=
  waiting = []

/-- What a client sends, and whether it corrupts it. -/
def sentText (pid : ℕ) (choice : LineChoice) : Text × Bool :=
  (writtenLine pid choice, choice.falsy)

/-- The verdicts on batches. -/
def verdictsOn (batches : List (List LineChoice)) : Text :=
  batches.flatMap fun batch => replyText (batchCorrect batch)

/-- The texts that a client has sent are `batches`, which were served, and
`waiting`, which were not read; each of them satisfies `Q`. -/
structure Exchanged (pid : ℕ) (Q : List LineChoice → Prop) (lI : ℕ)
    (sent : List (Text × Bool)) (displayed toServer toClient : Text)
    (batches : List (List LineChoice)) (waiting : List LineChoice) :
    Prop where
  history : sent = (batches.flatten ++ waiting).map (sentText pid)
  served : ∀ batch ∈ batches, batch ≠ [] ∧ Q batch
  unread : Q waiting
  arriving : toServer = batchText pid waiting
  replies : displayed ++ toClient = verdictsOn batches
  alternates : sent.map Prod.snd =
    (List.range lI).map fun i => decide ((i + 1) % 2 = 1)

variable {pid lI : ℕ} {Q : List LineChoice → Prop}
  {sent : List (Text × Bool)} {displayed toServer toClient : Text}
  {batches : List (List LineChoice)} {waiting : List LineChoice}

theorem exchanged_nil (hQ : Q []) :
    Exchanged pid Q 0 [] [] [] [] [] [] where
  history := rfl
  served := by simp
  unread := hQ
  arriving := rfl
  replies := rfl
  alternates := rfl

/-- The client sends another text. -/
theorem Exchanged.send
    (h : Exchanged pid Q lI sent displayed toServer toClient batches waiting)
    {choice : LineChoice}
    (hI : choice.falsy = decide ((lI + 1) % 2 = 1))
    (hQ : Q (waiting ++ [choice])) :
    Exchanged pid Q (lI + 1) (sent ++ [sentText pid choice]) displayed
      (toServer ++ writtenLine pid choice) toClient batches
      (waiting ++ [choice]) where
  history := by rw [h.history]; simp
  served := h.served
  unread := hQ
  arriving := by rw [h.arriving]; simp [batchText]
  replies := h.replies
  alternates := by
    rw [List.map_append, h.alternates, List.range_succ, List.map_append]
    simp [sentText, hI]

/-- The server reads everything that waits, and replies. -/
theorem Exchanged.serve
    (h : Exchanged pid Q lI sent displayed toServer toClient batches waiting)
    (hnil : Q []) (hne : waiting ≠ []) :
    Exchanged pid Q lI sent displayed []
      (toClient ++ replyText (batchCorrect waiting)) (batches ++ [waiting])
      [] where
  history := by rw [h.history]; simp
  served := by
    intro batch hbatch
    rcases List.mem_append.mp hbatch with hold | hnew
    · exact h.served batch hold
    · rw [List.mem_singleton.mp hnew]
      exact ⟨hne, h.unread⟩
  unread := hnil
  arriving := rfl
  replies := by
    rw [← List.append_assoc, h.replies]
    simp [verdictsOn]
  alternates := h.alternates

/-- The client displays the front of what has arrived. -/
theorem Exchanged.display
    (h : Exchanged pid Q lI sent displayed toServer toClient batches waiting)
    (k : ℕ) :
    Exchanged pid Q lI sent (displayed ++ toClient.take k) toServer
      (toClient.drop k) batches waiting :=
  ⟨h.history, h.served, h.unread, h.arriving,
    by rw [List.append_assoc, List.take_append_drop, h.replies],
    h.alternates⟩

/-- No reply starts like a close request. -/
theorem isClose_of_verdicts {bytes : List UInt8} (lBuf : Memory)
    (hne : bytes ≠ []) (h : ∀ b ∈ bytes, b ∈ verdictsOn batches) :
    isClose (lBuf.write 0 bytes) = false := by
  have hreply : ∀ (correct : Bool) (b : UInt8), b ∈ replyText correct →
      toLower b ≠ 99 := by
    intro correct b hb
    have hall : (replyText correct).all (fun b => toLower b != 99) = true := by
      cases correct <;> rfl
    simpa using List.all_eq_true.mp hall b hb
  obtain ⟨b, rest, rfl⟩ := List.exists_cons_of_ne_nil hne
  obtain ⟨batch, -, hb⟩ := List.mem_flatMap.mp (h b List.mem_cons_self)
  by_contra hclose
  exact hreply _ b hb (toLower_of_isClose (Bool.not_eq_false _ ▸ hclose))

/-! ## Passes of the client -/

/-- A pass that generates a text. -/
theorem clientPass_timeout {input : ClientInput} (lI : ℕ) (lBuf : Memory)
    (hpid : pid < 2 ^ 30) (hpoll : input.poll = .timeout)
    (hlen : input.digits.length < 30) :
    clientPass pid lI lBuf input =
      ⟨false, lI + 1, some (writtenLine pid
        ⟨input.digits, hlen, decide ((lI + 1) % 2 = 1)⟩), [], []⟩ := by
  have htext := cstring_clientText lBuf hpid
    ⟨input.digits, hlen, decide ((lI + 1) % 2 = 1)⟩ rfl
  simp only [clientPass, hpoll]
  rw [← htext]

/-- A pass that displays replies; it does not leave the loop. -/
theorem clientPass_display {input : ClientInput} {bytes : List UInt8}
    (pid lI : ℕ) (lBuf : Memory) (hpoll : input.poll = .ready false true)
    (hserver : input.server = .data bytes)
    (hwrite : input.stdoutWrite = .wrote bytes.length)
    (hne : bytes ≠ []) (hlen : bytes.length ≤ lBufSize)
    (hopen : isClose (lBuf.write 0 bytes) = false) :
    ∃ d : Relayed, clientPass pid lI lBuf input = ⟨false, lI, none, [], [d]⟩ ∧
      d.passed = bytes ∧ bytesRead d.read = bytes := by
  have hmade : (relay lBuf (.data bytes) (.wrote bytes.length)).2.Made :=
    made_relay lBuf _ hlen
  have hpassed := hmade.passed_data rfl
  refine ⟨_, ?_, hpassed.trans (List.take_length), rfl⟩
  obtain ⟨b, rest, rfl⟩ := List.exists_cons_of_ne_nil hne
  have hdisplay : displayServer lBuf input =
      (false, [(relay lBuf (.data (b :: rest))
        (.wrote (b :: rest).length)).2]) := by
    simp only [displayServer, hserver, hwrite]
    exact congrArg (·, _) hopen
  simp only [clientPass, hpoll]
  simp [hdisplay]

end Client

/-! ## Passes of the server -/

section Pass

variable {s s₁ s' : Server} {input : PassInput}

/-- A pass accepts, and then serves. -/
theorem serverPass_goes {es : List ServerEvent} {revents : ℕ → ℕ}
    (hpoll : input.poll = some revents)
    (hpass : serverPass s input = (.goes s', es)) :
    ∃ s₁ accepted,
      acceptClient { s with clients := polled s.clients revents } input =
        some (s₁, accepted) ∧
      s' = (serveClients s₁ input).1 ∧
      es = accepted ++ (serveClients s₁ input).2 ∧
      passReads s input = .polled (readyFds (polled s.clients revents)) ::
        (servedFd s₁.clients).toList.map .reads := by
  unfold serverPass at hpass
  simp only [hpoll] at hpass
  split at hpass
  next => simp at hpass
  next hstdin =>
    split at hpass
    next => simp at hpass
    next s₁ accepted haccept =>
      obtain ⟨hs', rfl⟩ := Prod.mk.inj hpass
      obtain rfl := PassEnd.goes.inj hs'
      refine ⟨s₁, accepted, haccept, rfl, rfl, ?_⟩
      simp only [passReads, hpoll, hstdin, haccept]

theorem serveClients_of_none (h : servedFd s₁.clients = none) :
    serveClients s₁ input = (s₁, []) := by
  unfold serveClients
  cases hfirst : firstReadable s₁.clients s₁.clients.length 2 with
  | none => rfl
  | some i =>
      obtain ⟨c, hc, -⟩ := readableAt_eq_true.mp (firstReadable_some hfirst).1
      simp [servedFd, hfirst, hc] at h

/-- A client that gets a reply stays in the vector. -/
theorem serveClients_of_reply {fd : ℤ} {text : Text} {buf : Memory}
    (h : servedFd s₁.clients = some fd)
    (hserved : readDataFromClient s₁.lBuf input.currentNum input.read =
      ⟨0, false, some text, buf⟩) :
    serveClients s₁ input = ({ s₁ with lBuf := buf }, [.wrote fd text]) := by
  unfold serveClients
  unfold servedFd at h
  obtain ⟨i, hfirst, hi⟩ := Option.bind_eq_some_iff.mp h
  obtain ⟨c, hc, rfl⟩ := Option.map_eq_some_iff.mp hi
  simp [hfirst, hc, hserved, servedEvents]

/-- The pass that accepts, and then serves. -/
theorem serverPass_of_accept {revents : ℕ → ℕ} {accepted : List ServerEvent}
    (hpoll : input.poll = some revents) (hstdin : revents 0 = 0)
    (haccept : acceptClient { s with clients := polled s.clients revents }
      input = some (s₁, accepted)) :
    serverPass s input =
        (.goes (serveClients s₁ input).1,
          accepted ++ (serveClients s₁ input).2) ∧
      passReads s input = .polled (readyFds (polled s.clients revents)) ::
        (servedFd s₁.clients).toList.map .reads := by
  have hnot : readableAt (polled s.clients revents) 0 = false := by
    rw [readableAt, polled, List.getElem?_mapIdx]
    cases s.clients[0]? <;> simp [Pollfd.readable, hstdin]
  have hnone : handleStdin
      { s with clients := polled s.clients revents } input = none := by
    simp [handleStdin, hnot]
  constructor
  · simp only [serverPass, hpoll, hnone, haccept]
  · simp only [passReads, hpoll, hnone, haccept]

end Pass

/-! ## The invariant -/

section Invariant

variable {P : Type*} [DecidableEq P] {pid : P → ℕ}
  {admits : List UInt8 → Text → Prop} {Q : P → List LineChoice → Prop}
  {tr : List (ChatEvent P)} {n : Chat P}

/-- The server polls the connection of the client. -/
def Chat.Polled (n : Chat P) (p : P) : Prop :=
  ∃ fd ∈ n.server.fds.drop 2, n.peer fd = some p

/-- What waits for the server satisfies `Q`, when texts are admitted. -/
structure Admission (pid : P → ℕ) (admits : List UInt8 → Text → Prop)
    (Q : P → List LineChoice → Prop) : Prop where
  nil : ∀ p, Q p []
  short : ∀ p waiting, Q p waiting →
    (batchText (pid p) waiting).length ≤ 511
  add : ∀ p waiting choice, Q p waiting →
    admits (batchText (pid p) waiting) (writtenLine (pid p) choice) →
      Q p (waiting ++ [choice])

structure ChatInv (pid : P → ℕ) (Q : P → List LineChoice → Prop)
    (tr : List (ChatEvent P)) (n : Chat P) : Prop where
  zeroed : ZeroBuf n.server.lBuf
  entries : 2 ≤ n.server.clients.length
  stays : ∀ p, n.status p ≠ .left ∧ n.hungUp p = false
  quiet : ∀ p, n.status p = .outside → n.toServer p = [] ∧ n.toClient p = []
  exchanged : ∀ p, ∃ batches waiting,
    Exchanged (pid p) (Q p) (n.lI p) (sentBy p tr) (displayedBy p tr)
      (n.toServer p) (n.toClient p) batches waiting
  peers : ∀ fd p, n.peer fd = some p → fd ∈ n.server.openFds
  known : ∀ p, n.status p = .inside → p ∈ n.backlog ∨ n.Polled p

theorem chatInv_init (hQ : ∀ p, Q p []) (h : ChatInit n) :
    ChatInv pid Q [] n where
  zeroed := by
    rw [h.server.2.1]
    exact fun _ _ => rfl
  entries := by
    obtain ⟨⟨r, r', hclients⟩, -⟩ := h.server
    simp [hclients]
  stays p := by simp [h.status, h.hungUp]
  quiet p _ := ⟨h.toServer p, h.toClient p⟩
  exchanged p := by
    refine ⟨[], [], ?_⟩
    rw [h.lI, h.toServer, h.toClient]
    exact exchanged_nil (hQ p)
  peers fd p hfd := by simp [h.peer] at hfd
  known p hp := by simp [h.status] at hp

theorem ChatInv.connect (h : ChatInv pid Q tr n) (p : P) :
    ChatInv pid Q tr
      { n with
        status := Function.update n.status p .inside
        backlog := n.backlog ++ [p] } where
  zeroed := h.zeroed
  entries := h.entries
  stays q := by
    refine ⟨?_, (h.stays q).2⟩
    by_cases hq : q = p
    · simp [hq]
    · simpa [hq] using (h.stays q).1
  quiet q hq := by
    by_cases heq : q = p
    · simp [heq] at hq
    · simp only [Function.update_of_ne heq] at hq
      exact h.quiet q hq
  exchanged := h.exchanged
  peers := h.peers
  known q hq := by
    by_cases heq : q = p
    · exact Or.inl (by simp [heq])
    · simp only [Function.update_of_ne heq] at hq
      rcases h.known q hq with hback | hpolled
      · exact Or.inl (List.mem_append_left _ hback)
      · exact Or.inr hpolled

/-- A pass of one client touches nothing of the others. -/
theorem ChatInv.client (h : ChatInv pid Q tr n) {p : P} {r : ClientPass}
    (hinside : n.status p = .inside) (hstays : r.leaves = false)
    (hexchanged : ∃ batches waiting,
      Exchanged (pid p) (Q p) r.lI (sentBy p (tr ++ clientEvents p r))
        (displayedBy p (tr ++ clientEvents p r))
        ((n.afterClient p r).toServer p) ((n.afterClient p r).toClient p)
        batches waiting) :
    ChatInv pid Q (tr ++ clientEvents p r) (n.afterClient p r) where
  zeroed := h.zeroed
  entries := h.entries
  stays := by simpa [Chat.afterClient, hstays] using h.stays
  quiet q hq := by
    simp only [Chat.afterClient, hstays, Bool.false_eq_true, if_false] at hq
    have hne : q ≠ p := by
      rintro rfl
      rw [hinside] at hq
      cases hq
    simpa [Chat.afterClient, hne] using h.quiet q hq
  exchanged q := by
    by_cases hq : q = p
    · subst hq
      simpa [Chat.afterClient] using hexchanged
    · have hsent : sentBy q (clientEvents p r) = [] := by
        cases hr : r.generated <;>
          simp [sentBy, clientEvents, hr, Ne.symm hq]
      have hdisplayed : displayedBy q (clientEvents p r) = [] := by
        cases hr : r.generated <;>
          simp [displayedBy, clientEvents, hr, Ne.symm hq]
      simpa [Chat.afterClient, hq, hsent, hdisplayed] using h.exchanged q
  peers := h.peers
  known := by simpa [Chat.afterClient, hstays, Chat.Polled] using h.known

theorem ChatInv.clientPass (h : ChatInv pid Q tr n)
    (hQ : Admission pid admits Q) {p : P} (hpid : pid p ≤ pidMax)
    {lBuf : Memory} {input : ClientInput} (hinside : n.status p = .inside)
    (hsees : n.ClientSees p input)
    (hadmits : ∀ text,
      (clientPass (pid p) (n.lI p) lBuf input).generated = some text →
        admits (n.toServer p) text) :
    ChatInv pid Q
      (tr ++ clientEvents p (Socksrv.clientPass (pid p) (n.lI p) lBuf input))
      (n.afterClient p (Socksrv.clientPass (pid p) (n.lI p) lBuf input)) := by
  have hsmall : pid p < 2 ^ 30 := hpid.trans_lt (by decide)
  obtain ⟨batches, waiting, hp⟩ := h.exchanged p
  unfold Chat.ClientSees at hsees
  split at hsees
  next => exact hsees.elim
  next hpoll =>
    have hpass := clientPass_timeout (n.lI p) lBuf hsmall hpoll hsees
    rw [hpass] at hadmits ⊢
    have hadmitted := hadmits _ rfl
    rw [hp.arriving] at hadmitted
    have hsend := hp.send rfl (hQ.add p waiting _ hp.unread hadmitted)
    refine h.client hinside rfl ⟨batches, waiting ++
      [⟨input.digits, hsees, decide ((n.lI p + 1) % 2 = 1)⟩], ?_⟩
    simpa [Chat.afterClient, clientEvents, sentBy, displayedBy, sentText]
      using hsend
  next hpoll =>
    obtain ⟨rfl, rfl, hsome, k, hk, hkle, hserver, hwrite⟩ := hsees
    have hne : n.toClient p ≠ [] := hsome.resolve_right (by simp [h.stays p])
    have htake : (n.toClient p).take k ≠ [] := by
      simp only [ne_eq, List.take_eq_nil_iff, hne, or_false]
      omega
    have hbytes : ∀ b ∈ (n.toClient p).take k, b ∈ verdictsOn batches := by
      intro b hb
      rw [← hp.replies]
      exact List.mem_append_right _ (List.mem_of_mem_take hb)
    have hlen : ((n.toClient p).take k).length ≤ lBufSize :=
      (List.length_take_le _ _).trans hkle
    have hdrop : (n.toClient p).drop ((n.toClient p).take k).length =
        (n.toClient p).drop k := by
      rw [List.length_take, List.drop_eq_drop_iff]
      omega
    obtain ⟨d, hpass, hpassed, hread⟩ :=
      clientPass_display (pid p) (n.lI p) lBuf hpoll hserver hwrite htake hlen
        (isClose_of_verdicts lBuf htake hbytes)
    rw [hpass]
    have hdisplay := hp.display k
    refine h.client hinside rfl ⟨batches, waiting, ?_⟩
    simpa [Chat.afterClient, clientEvents, sentBy, displayedBy, hpassed,
      hread, hdrop, -List.length_take] using hdisplay

/-! ## A pass of the server -/

/-- The calls do not depend on the variables of the server. -/
theorem afterEvents_server (n : Chat P) (es : List ServerEvent)
    (s : Server) :
    es.foldl Chat.afterEvent { n with server := s } =
      { es.foldl Chat.afterEvent n with server := s } := by
  induction es generalizing n with
  | nil => rfl
  | cons e es ih =>
      have hfirst : Chat.afterEvent { n with server := s } e =
          { n.afterEvent e with server := s } := by
        cases e with
        | accepted fd => cases hback : n.backlog <;> simp [Chat.afterEvent, hback]
        | closed fd => cases hpeer : n.peer fd <;> simp [Chat.afterEvent, hpeer]
        | wrote fd text =>
            cases hpeer : n.peer fd <;> simp [Chat.afterEvent, hpeer]
      rw [List.foldl_cons, List.foldl_cons, hfirst, ih]

/-- The calls of the loop that serves leave the connections where they are. -/
theorem afterEvents_peer (n : Chat P) (s : Server) (input : PassInput) :
    ((serveClients s input).2.foldl Chat.afterEvent n).peer = n.peer := by
  have hclosed : ∀ (n : Chat P) fd, (n.afterEvent (.closed fd)).peer = n.peer := by
    intro n fd
    cases hpeer : n.peer fd <;> simp [Chat.afterEvent, hpeer]
  have hwrote : ∀ (n : Chat P) fd text,
      (n.afterEvent (.wrote fd text)).peer = n.peer := by
    intro n fd text
    cases hpeer : n.peer fd <;> simp [Chat.afterEvent, hpeer]
  rw [serveClients_eq]
  split
  next => rfl
  next fd =>
    obtain ⟨ret, closed, reply, lBuf⟩ :=
      readDataFromClient s.lBuf input.currentNum input.read
    cases closed <;> cases reply <;> simp [servedEvents, hclosed, hwrote]

omit [DecidableEq P] in
/-- The listening socket is readable when a client waits. -/
theorem readableAt_listening
    (hlen : 2 ≤ n.server.clients.length) :
    readableAt (polled n.server.clients n.revents) 1 = true ↔
      n.backlog ≠ [] := by
  rw [readableAt, polled, List.getElem?_mapIdx,
    List.getElem?_eq_getElem (by omega : 1 < n.server.clients.length)]
  cases hback : n.backlog <;>
    simp [Pollfd.readable, Chat.revents, hback, pollin]

/-- What the block that accepts does to the connections. -/
theorem ChatInv.accept (h : ChatInv pid Q tr n) {input : PassInput}
    {s₁ : Server} {accepted : List ServerEvent}
    (hfresh : input.accept ∉ n.server.openFds)
    (haccept : acceptClient { n.server with
      clients := polled n.server.clients n.revents } input =
        some (s₁, accepted)) :
    ∃ peer,
      accepted.foldl Chat.afterEvent n =
          { n with backlog := n.backlog.tail, peer := peer } ∧
        (∀ fd p, n.peer fd = some p → peer fd = some p) ∧
        ChatInv pid Q tr
          { n with
            server := s₁
            backlog := n.backlog.tail
            peer := peer } := by
  unfold acceptClient at haccept
  split at haccept
  next hreadable =>
    split at haccept
    next => simp at haccept
    next =>
      obtain ⟨rfl, rfl⟩ := Prod.mk.inj (Option.some.inj haccept)
      obtain ⟨p, rest, hback⟩ := List.exists_cons_of_ne_nil
        ((readableAt_listening h.entries).mp hreadable)
      have hkept : ∀ fd q, n.peer fd = some q →
          Function.update n.peer input.accept (some p) fd = some q := by
        intro fd q hq
        have hold : fd ≠ input.accept := by
          rintro rfl
          exact hfresh (h.peers _ q hq)
        exact (Function.update_of_ne hold _ _).trans hq
      rw [hback, List.tail_cons]
      refine ⟨Function.update n.peer input.accept (some p),
        by simp [Chat.afterEvent, hback], hkept, h.zeroed, ?_, h.stays,
        h.quiet, h.exchanged, ?_, ?_⟩
      · have hlen := h.entries
        simp only [List.length_append, polled, List.length_mapIdx]
        omega
      · intro fd q hfd
        simp only at hfd ⊢
        by_cases hnew : fd = input.accept
        · exact hnew ▸ Finset.mem_insert_self _ _
        · rw [Function.update_of_ne hnew] at hfd
          exact Finset.mem_insert_of_mem (h.peers fd q hfd)
      · intro q hq
        have hfds : Server.fds { n.server with
            clients := polled n.server.clients n.revents ++
              [⟨input.accept, pollin, input.newRevents⟩]
            openFds := insert input.accept n.server.openFds } =
            n.server.fds ++ [input.accept] := by
          simp [Server.fds, polled_fds]
        have hlen' : 2 ≤ n.server.fds.length := by
          rw [Server.fds, List.length_map]
          exact h.entries
        have hdrop : (n.server.fds ++ [input.accept]).drop 2 =
            n.server.fds.drop 2 ++ [input.accept] :=
          List.drop_append_of_le_length hlen'
        rcases h.known q hq with hwaits | ⟨fd, hfd, hpeer⟩
        · rw [hback] at hwaits
          rcases List.mem_cons.mp hwaits with rfl | hrest
          · refine Or.inr ⟨input.accept, ?_, Function.update_self _ _ _⟩
            rw [hfds, hdrop]
            exact List.mem_append_right _ List.mem_cons_self
          · exact Or.inl hrest
        · refine Or.inr ⟨fd, ?_, hkept fd q hpeer⟩
          rw [hfds, hdrop]
          exact List.mem_append_left _ hfd
  next hnot =>
    obtain ⟨rfl, rfl⟩ := Prod.mk.inj (Option.some.inj haccept)
    have hback : n.backlog = [] := by
      by_contra hne
      exact hnot ((readableAt_listening h.entries).mpr hne)
    have htail : n.backlog.tail = n.backlog := by rw [hback]; rfl
    rw [htail]
    refine ⟨n.peer, rfl, fun _ _ hq => hq, h.zeroed, ?_, h.stays, h.quiet,
      h.exchanged, h.peers, ?_⟩
    · simpa [polled] using h.entries
    intro q hq
    rcases h.known q hq with hwaits | ⟨fd, hfd, hpeer⟩
    · exact Or.inl hwaits
    · refine Or.inr ⟨fd, ?_, hpeer⟩
      rwa [Server.fds, polled_fds]

/-- Behind the loop that serves. -/
def Chat.served (n : Chat P) (input : PassInput) : Chat P :=
  ((servedFd n.server.clients).toList.map ReadEvent.reads).foldl
    (Chat.afterRead input.read)
    ((serveClients n.server input).2.foldl Chat.afterEvent
      { n with server := (serveClients n.server input).1 })

/-- The `read` of the loop takes what has arrived from its client. -/
def Chat.ReadsArrived (n : Chat P) (input : PassInput) : Prop :=
  ∀ fd, servedFd n.server.clients = some fd →
    ∃ p, n.peer fd = some p ∧ n.arrived p = true ∧
      input.read = .data ((n.toServer p).take lBufSize)

/-- The client that is served gets the verdict on all it has sent since the
last one, and its connection stays. -/
theorem ChatInv.reply (h : ChatInv pid Q tr n) (hQ : Admission pid admits Q)
    (hpid : ∀ p, 1 ≤ pid p ∧ pid p ≤ pidMax) {input : PassInput} {fd : ℤ}
    (hread : n.ReadsArrived input)
    (hserved : servedFd n.server.clients = some fd) :
    ∃ p batches waiting buf, n.toServer p ≠ [] ∧ waiting ≠ [] ∧
      Exchanged (pid p) (Q p) (n.lI p) (sentBy p tr) (displayedBy p tr)
        (n.toServer p) (n.toClient p) batches waiting ∧
      ZeroBuf buf ∧
      n.served input =
        { n with
          server := { n.server with lBuf := buf }
          toServer := Function.update n.toServer p []
          toClient := Function.update n.toClient p
            (n.toClient p ++ replyText (batchCorrect waiting)) } := by
  obtain ⟨p, hpeer, harrived, hdata⟩ := hread fd hserved
  obtain ⟨batches, waiting, hp⟩ := h.exchanged p
  have hshort := hQ.short p waiting hp.unread
  have hwhole : (n.toServer p).take lBufSize = batchText (pid p) waiting := by
    rw [hp.arriving, List.take_of_length_le]
    exact hshort.trans (by decide)
  have hbytes : n.toServer p ≠ [] := by
    intro hnil
    simp [Chat.arrived, hnil, h.stays p] at harrived
  have hne : waiting ≠ [] := by
    rintro rfl
    exact hbytes hp.arriving
  obtain ⟨buf, hreply, hbuf⟩ := served_batch h.zeroed (hpid p).1 (hpid p).2
    hne hshort input.currentNum
  rw [hwhole] at hdata
  rw [← hdata] at hreply
  have hdrop : (n.toServer p).drop (bytesRead input.read).length = [] := by
    rw [hdata, hp.arriving]
    exact List.drop_length
  refine ⟨p, batches, waiting, buf, hbytes, hne, hp, hbuf, ?_⟩
  rw [Chat.served, serveClients_of_reply hserved hreply, hserved]
  simp only [Option.toList_some, List.map_cons, List.map_nil,
    List.foldl_cons, List.foldl_nil, Chat.afterEvent, hpeer,
    Chat.afterRead, hdrop]

theorem ChatInv.serve (h : ChatInv pid Q tr n) (hQ : Admission pid admits Q)
    (hpid : ∀ p, 1 ≤ pid p ∧ pid p ≤ pidMax) {input : PassInput}
    (hread : n.ReadsArrived input) : ChatInv pid Q tr (n.served input) := by
  cases hserved : servedFd n.server.clients with
  | none =>
      rw [Chat.served, serveClients_of_none hserved, hserved]
      exact h
  | some fd =>
      obtain ⟨p, batches, waiting, buf, hbytes, hne, hp, hbuf, hafter⟩ :=
        h.reply hQ hpid hread hserved
      rw [hafter]
      refine ⟨hbuf, h.entries, h.stays, fun q hq => ?_, fun q => ?_, h.peers,
        h.known⟩
      · have hqp : q ≠ p := by
          rintro rfl
          exact hbytes (h.quiet q hq).1
        simpa [hqp] using h.quiet q hq
      · by_cases hq : q = p
        · subst hq
          have hserve := hp.serve (hQ.nil q) hne
          exact ⟨_, _, by simpa using hserve⟩
        · simpa [hq] using h.exchanged q

/-- A pass accepts, and serves behind that. -/
theorem ChatInv.afterPass_eq (h : ChatInv pid Q tr n) {input : PassInput}
    {s' : Server} {es : List ServerEvent} (hsees : n.ServerSees input es)
    (hpass : Socksrv.serverPass n.server input = (.goes s', es)) :
    ∃ n₁ : Chat P, ChatInv pid Q tr n₁ ∧ n₁.ReadsArrived input ∧
      n.afterPass input s' es = n₁.served input ∧
      (∀ i, readableAt (polled n.server.clients n.revents) i = true →
        readableAt n₁.server.clients i = true) ∧
      n₁.backlog = n.backlog.tail ∧ n₁.toServer = n.toServer ∧
      n₁.toClient = n.toClient := by
  obtain ⟨s₁, accepted, haccept, rfl, rfl, hreads⟩ :=
    serverPass_goes hsees.poll hpass
  obtain ⟨peer, hafter, -, hinv⟩ := h.accept hsees.fresh haccept
  have hread := hsees.read
  rw [hreads, List.foldl_append, afterEvents_peer, hafter] at hread
  refine ⟨_, hinv, fun fd hfd => hread fd ?_, ?_, fun i hi => ?_, rfl, rfl,
    rfl⟩
  · exact List.mem_cons_of_mem _ (by simp [hfd])
  · rw [Chat.afterPass, hreads, List.foldl_append,
      afterEvents_server n accepted, hafter, List.foldl_cons]
    rfl
  · obtain ⟨c, hc, hreadable⟩ := readableAt_eq_true.mp hi
    obtain ⟨hlt, -⟩ := List.getElem?_eq_some_iff.mp hc
    rcases acceptClient_cases haccept with ⟨rfl, -⟩ | ⟨rfl, -⟩
    · exact hi
    · refine readableAt_eq_true.mpr ⟨c, ?_, hreadable⟩
      exact (List.getElem?_append_left hlt).trans hc

/-- Every step keeps the invariant. -/
theorem ChatInv.step (h : ChatInv pid Q tr n) (hQ : Admission pid admits Q)
    (hpid : ∀ p, 1 ≤ pid p ∧ pid p ≤ pidMax) {es : List (ChatEvent P)}
    {n' : Chat P} (hstep : ChatStep pid admits n es n') :
    ChatInv pid Q (tr ++ es) n' := by
  cases hstep with
  | connects => simpa using h.connect _
  | clientPass hinside hsees hadmits =>
      exact h.clientPass hQ (hpid _).2 hinside hsees hadmits
  | serverPass hsees hpass =>
      obtain ⟨n₁, hinv, hread, hafter, -⟩ := h.afterPass_eq hsees hpass
      rw [List.append_nil, hafter]
      exact hinv.serve hQ hpid hread

theorem chatInv_exec (hQ : Admission pid admits Q)
    (hpid : ∀ p, 1 ≤ pid p ∧ pid p ≤ pidMax)
    (h : (chatSystem pid admits).Exec tr n) : ChatInv pid Q tr n := by
  refine h.invariant (I := ChatInv pid Q) ?_ ?_
  · exact fun n hn => chatInv_init hQ.nil hn
  · exact fun tr n es n' hinv hstep => hinv.step hQ hpid hstep

end Invariant

/-! ## Steps that can be made -/

/-- `poll` times out, and these digits are generated. -/
def generating (digits : List (Fin 10)) : ClientInput :=
  ⟨.timeout, digits, .failed, .failed, .failed, .failed⟩

/-- These bytes arrive, and are displayed. -/
def displaying (bytes : List UInt8) : ClientInput :=
  ⟨.ready false true, [], .failed, .failed, .data bytes, .wrote bytes.length⟩

section Steps

variable {P : Type*} [DecidableEq P] {pid : P → ℕ}
  {admits : List UInt8 → Text → Prop} {n : Chat P} {p : P}

/-- A client can generate every text that is admitted. -/
theorem chatStep_generate (hinside : n.status p = .inside)
    (hpid : pid p < 2 ^ 30) (choice : LineChoice)
    (hI : choice.falsy = decide ((n.lI p + 1) % 2 = 1))
    (hadmits : admits (n.toServer p) (writtenLine (pid p) choice)) :
    ChatStep pid admits n
      [.sent p (writtenLine (pid p) choice) choice.falsy]
      { n with
        lI := Function.update n.lI p (n.lI p + 1)
        toServer := Function.update n.toServer p
          (n.toServer p ++ writtenLine (pid p) choice) } := by
  have hlen : (generating choice.digits).digits.length < 30 := choice.length_lt
  have hpass : clientPass (pid p) (n.lI p) (fun _ => 0)
      (generating choice.digits) =
        ⟨false, n.lI p + 1, some (writtenLine (pid p) choice), [], []⟩ := by
    rw [clientPass_timeout (n.lI p) (fun _ => 0) hpid rfl hlen]
    simp only [← hI]
    rfl
  have hsees : n.ClientSees p (generating choice.digits) := hlen
  have hadmitted : ∀ text, (clientPass (pid p) (n.lI p) (fun _ => 0)
      (generating choice.digits)).generated = some text →
        admits (n.toServer p) text := by
    intro text htext
    rw [hpass] at htext
    exact Option.some.inj htext ▸ hadmits
  have hstep := ChatStep.clientPass hinside hsees hadmitted
  rw [hpass] at hstep
  simpa [Chat.afterClient, clientEvents, hI] using hstep

/-- A client can display the front of the replies that have arrived. -/
theorem chatStep_display {batches : List (List LineChoice)}
    (hinside : n.status p = .inside) (hne : n.toClient p ≠ [])
    (hbytes : ∀ b ∈ n.toClient p, b ∈ verdictsOn batches) :
    ChatStep pid admits n [.displayed p ((n.toClient p).take lBufSize)]
      { n with
        toClient := Function.update n.toClient p
          ((n.toClient p).drop lBufSize) } := by
  have htake : (n.toClient p).take lBufSize ≠ [] := by
    simp [List.take_eq_nil_iff, hne, lBufSize]
  have hlen : ((n.toClient p).take lBufSize).length ≤ lBufSize :=
    List.length_take_le _ _
  have hopen := isClose_of_verdicts (fun _ => 0) htake
    fun b hb => hbytes b (List.mem_of_mem_take hb)
  have hsees : n.ClientSees p (displaying ((n.toClient p).take lBufSize)) :=
    ⟨rfl, rfl, Or.inl hne, lBufSize, by decide, le_rfl, rfl, rfl⟩
  obtain ⟨d, hpass, hpassed, hread⟩ :
      ∃ d : Relayed, clientPass (pid p) (n.lI p) (fun _ => 0)
        (displaying ((n.toClient p).take lBufSize)) = _ ∧ _ :=
    clientPass_display (pid p) (n.lI p) (fun _ => 0) rfl rfl rfl htake hlen
      hopen
  have hdrop : (n.toClient p).drop ((n.toClient p).take lBufSize).length =
      (n.toClient p).drop lBufSize := by
    rw [List.length_take, List.drop_eq_drop_iff]
    omega
  have hnone : ∀ text, (clientPass (pid p) (n.lI p) (fun _ => 0)
      (displaying ((n.toClient p).take lBufSize))).generated = some text →
        admits (n.toServer p) text := by
    intro text htext
    rw [hpass] at htext
    simp at htext
  have hstep := ChatStep.clientPass hinside hsees hnone
  rw [hpass] at hstep
  simpa [Chat.afterClient, clientEvents, hpassed, hread, hdrop,
    -List.length_take] using hstep

/-- The server can answer the first client that has sent something. -/
theorem chatStep_reply {fd : ℤ} {text : Text} {buf : Memory}
    (hback : n.backlog = [])
    (hserved : servedFd (polled n.server.clients n.revents) = some fd)
    (hpeer : n.peer fd = some p) (hne : n.toServer p ≠ [])
    (hreply : readDataFromClient n.server.lBuf 0
      (.data ((n.toServer p).take lBufSize)) = ⟨0, false, some text, buf⟩) :
    ChatStep pid admits n []
      { n with
        server := { n.server with
          clients := polled n.server.clients n.revents
          lBuf := buf }
        toServer := Function.update n.toServer p
          ((n.toServer p).drop lBufSize)
        toClient := Function.update n.toClient p (n.toClient p ++ text) } := by
  obtain ⟨fd', hfd'⟩ :=
    Infinite.exists_notMem_finset (insert (-1) n.server.openFds)
  rw [Finset.mem_insert, not_or] at hfd'
  let input : PassInput :=
    ⟨some n.revents, none, fun _ => 0, fd', 0,
      .data ((n.toServer p).take lBufSize), 0⟩
  have haccept : acceptClient { n.server with
      clients := polled n.server.clients n.revents } input =
        some ({ n.server with
          clients := polled n.server.clients n.revents }, []) := by
    have hnot : readableAt (polled n.server.clients n.revents) 1 = false := by
      rw [readableAt, polled, List.getElem?_mapIdx]
      cases n.server.clients[1]? <;>
        simp [Pollfd.readable, Chat.revents, hback]
    simp [acceptClient, hnot]
  obtain ⟨hpass, hreads⟩ := serverPass_of_accept rfl rfl haccept
  have hserve : serveClients { n.server with
      clients := polled n.server.clients n.revents } input = _ :=
    serveClients_of_reply hserved hreply
  rw [hserve, List.nil_append] at hpass
  rw [hserved] at hreads
  obtain ⟨i, c, -, hc, hreadable, -⟩ := servedFd_some hserved
  have hready : n.revents i ≠ 0 := by
    simp only [polled, List.getElem?_mapIdx, Option.map_eq_some_iff] at hc
    obtain ⟨c₀, -, rfl⟩ := hc
    intro hzero
    simp [Pollfd.readable, hzero] at hreadable
  have hsees : n.ServerSees input [.wrote fd text] := by
    refine ⟨rfl, ⟨i, hready⟩, hfd'.2, hfd'.1, ?_⟩
    intro fd₀ hfd₀
    rw [hreads] at hfd₀
    obtain rfl : fd₀ = fd := by simpa using hfd₀
    exact ⟨p, by simp [Chat.afterEvent, hpeer], by simp [Chat.arrived, hne],
      rfl⟩
  have hdrop : (n.toServer p).drop ((n.toServer p).take lBufSize).length =
      (n.toServer p).drop lBufSize := by
    rw [List.length_take, List.drop_eq_drop_iff]
    omega
  have hstep : ChatStep pid admits n _ _ := .serverPass hsees hpass
  simpa [Chat.afterPass, hreads, Chat.afterEvent, Chat.afterRead, hpeer, input,
    bytesRead, hdrop, -List.length_take] using hstep

end Steps

/-! ## One client -/

/-- The server listens, and nobody has connected. -/
def listeningChat : Chat Unit where
  server := listening
  backlog := []
  peer _ := none
  status _ := .outside
  hungUp _ := false
  lI _ := 0
  toServer _ := []
  toClient _ := []

theorem listeningChat_init : ChatInit listeningChat :=
  ⟨⟨⟨0, 0, rfl⟩, rfl, by decide, by decide⟩, rfl, fun _ => rfl, fun _ => rfl,
    fun _ => rfl, fun _ => rfl, fun _ => rfl, fun _ => rfl⟩

/-- The client has connected. -/
def connectedChat : Chat Unit :=
  { listeningChat with
    status := Function.update listeningChat.status () .inside
    backlog := [()] }

/-- The server has accepted the client as descriptor 4. -/
def acceptedChat : Chat Unit :=
  { connectedChat with
    server := { listening with
      clients := [⟨0, pollin, 0⟩, ⟨3, pollin, 1⟩, ⟨4, pollin, 0⟩]
      openFds := {4, 0, 3} }
    backlog := []
    peer := Function.update connectedChat.peer 4 (some ()) }

theorem acceptedChat_exec (pid : Unit → ℕ)
    (admits : List UInt8 → Text → Prop) :
    (chatSystem pid admits).Exec [] acceptedChat := by
  have hconnect : (chatSystem pid admits).step listeningChat []
      connectedChat := .connects rfl
  have hsees : connectedChat.ServerSees
      ⟨some connectedChat.revents, none, fun _ => 0, 4, 0, .failed, 0⟩
      [.accepted 4] := by
    refine ⟨rfl, ⟨1, by decide⟩, by decide, by decide, ?_⟩
    have hreads : passReads connectedChat.server
        ⟨some connectedChat.revents, none, fun _ => 0, 4, 0, .failed, 0⟩ =
          [.polled [3]] := by decide
    simp [hreads]
  have haccept : (chatSystem pid admits).step connectedChat [] acceptedChat :=
    .serverPass hsees rfl
  exact ((System.Exec.init listeningChat_init).step hconnect).step haccept

/-- Its pid is 12. -/
def oneClient (_ : Unit) : ℕ := 12

def firstText : LineChoice := ⟨[3, 4], by decide, true⟩

def secondText : LineChoice := ⟨[], by decide, false⟩

/-- The server polls the client as descriptor 4, and has sent it no reply that
is on the way. -/
structure Connected (n : Chat Unit) : Prop where
  zeroed : ZeroBuf n.server.lBuf
  backlog : n.backlog = []
  clients : ∃ r₀ r₁ r₂, n.server.clients =
    [⟨0, pollin, r₀⟩, ⟨3, pollin, r₁⟩, ⟨4, pollin, r₂⟩]
  peer : n.peer 4 = some ()
  inside : n.status () = .inside
  replies : n.toClient () = []

theorem connected_accepted : Connected acceptedChat :=
  ⟨fun _ _ => rfl, rfl, ⟨0, 1, 0, rfl⟩, rfl, rfl, rfl⟩

/-- A client that sends something stays polled. -/
theorem Connected.sends {n : Chat Unit} (h : Connected n) (lI : Unit → ℕ)
    (toServer : Unit → List UInt8) :
    Connected { n with lI := lI, toServer := toServer } :=
  ⟨h.zeroed, h.backlog, h.clients, h.peer, h.inside, h.replies⟩

theorem Connected.servedFd {n : Chat Unit} (h : Connected n)
    (hwaits : n.toServer () ≠ []) :
    servedFd (polled n.server.clients n.revents) = some 4 := by
  obtain ⟨r₀, r₁, r₂, hclients⟩ := h.clients
  have harrived : n.revents 2 = pollin := by
    simp [Chat.revents, hclients, h.peer, Chat.arrived, hwaits]
  rw [hclients, polled]
  simp [Pvos.Socksrv.servedFd, firstReadable, readableAt, Pollfd.readable,
    harrived, pollin]

/-- The server answers the texts that wait, and the client displays the
reply. -/
theorem answered_exec {admits : List UInt8 → Text → Prop}
    {tr : List (ChatEvent Unit)} {n : Chat Unit}
    (h : (chatSystem oneClient admits).Exec tr n) (hn : Connected n)
    {batch : List LineChoice} (hne : batch ≠ [])
    (hlen : (batchText 12 batch).length ≤ 511)
    (htexts : n.toServer () = batchText 12 batch) :
    ∃ n', (chatSystem oneClient admits).Exec
        (tr ++ [.displayed () (replyText (batchCorrect batch))]) n' ∧
      Connected n' ∧ n'.toServer () = [] ∧ n'.lI () = n.lI () := by
  have hcount := length_batch_le (by decide : 12 < 2 ^ 30) batch
  have hpos := List.length_pos_of_ne_nil hne
  have hwaits : n.toServer () ≠ [] := by
    rw [htexts]
    exact List.length_pos_iff.mp (by omega)
  have hsize : (n.toServer ()).length ≤ lBufSize := by
    rw [htexts]
    exact hlen.trans (by decide)
  have htake : (n.toServer ()).take lBufSize = batchText 12 batch := by
    rw [List.take_of_length_le hsize, htexts]
  obtain ⟨buf, hreply, hzero⟩ :=
    served_batch hn.zeroed (by decide) (by decide) hne hlen 0
  rw [← htake] at hreply
  have hanswer := h.step
    (chatStep_reply hn.backlog (hn.servedFd hwaits) hn.peer hwaits hreply)
  have hreplyLen : (replyText (batchCorrect batch)).length ≤ lBufSize := by
    cases batchCorrect batch <;> decide
  have hreplyNe : replyText (batchCorrect batch) ≠ [] := by
    cases batchCorrect batch <;> decide
  rw [hn.replies, List.nil_append, List.append_nil] at hanswer
  have hbytes : ∀ b ∈ Function.update n.toClient ()
      (replyText (batchCorrect batch)) (), b ∈ verdictsOn [batch] := by
    simp [verdictsOn]
  have hdisplay := hanswer.step (chatStep_display (p := ()) hn.inside
    (by simpa using hreplyNe) hbytes)
  dsimp only at hdisplay
  rw [Function.update_self, List.take_of_length_le hreplyLen] at hdisplay
  refine ⟨_, hdisplay, ⟨hzero, hn.backlog, ?_, hn.peer, hn.inside, ?_⟩, ?_, rfl⟩
  · obtain ⟨r₀, r₁, r₂, hclients⟩ := hn.clients
    exact ⟨n.revents 0, n.revents 1, n.revents 2, by simp [hclients, polled]⟩
  · simp [List.drop_eq_nil_of_le hreplyLen]
  · simp [List.drop_eq_nil_of_le hsize]

/-! ## Result -/

section Result

variable {P : Type*} [DecidableEq P] {pid : P → ℕ}
  {tr : List (ChatEvent P)} {n : Chat P}

omit [DecidableEq P] in
theorem admission_keepsUp (pid : P → ℕ) :
    Admission pid KeepsUp
      fun p waiting => (batchText (pid p) waiting).length ≤ 511 where
  nil p := Nat.zero_le _
  short p waiting h := h
  add p waiting choice _ h := by
    have hlen : (batchText (pid p) (waiting ++ [choice])).length =
        (batchText (pid p) waiting).length +
          (writtenLine (pid p) choice).length := by
      simp [batchText]
    exact hlen.trans_le h

omit [DecidableEq P] in
theorem admission_waits (hpid : ∀ p, pid p < 2 ^ 30) :
    Admission pid WaitsForVerdict fun _ waiting => waiting.length ≤ 1 where
  nil p := Nat.zero_le _
  short p waiting h := by
    match waiting with
    | [] => exact Nat.zero_le _
    | [choice] =>
        have hlen := length_writtenLine_lt (hpid p) choice
        rw [bufferSize] at hlen
        simp only [batchText, List.flatMap_cons, List.flatMap_nil,
          List.append_nil]
        omega
  add p waiting choice _ h := by
    have hlen := length_batch_le (hpid p) waiting
    rw [h, List.length_nil] at hlen
    rw [List.length_append, List.length_singleton]
    omega

theorem verdictsOn_singles {batches : List (List LineChoice)}
    (h : ∀ batch ∈ batches, batch ≠ [] ∧ batch.length ≤ 1) :
    verdictsOn batches =
      (batches.flatten.map LineChoice.falsy).flatMap
        fun falsy => replyText !falsy := by
  induction batches with
  | nil => rfl
  | cons batch batches ih =>
      obtain ⟨⟨hne, hle⟩, hrest⟩ := List.forall_mem_cons.mp h
      obtain ⟨choice, rfl⟩ : ∃ choice, batch = [choice] :=
        List.length_eq_one_iff.mp
          (Nat.le_antisymm hle (List.length_pos_of_ne_nil hne))
      rw [verdictsOn, List.flatMap_cons, ← verdictsOn, ih hrest]
      rfl

/-- When every text is read before the next one is generated, each client sees
`ERR` and `OK` in turn, one for each text that the server has read, and that is
every text or all but the last. -/
theorem verdicts_alternate (hpid : ∀ p, 1 ≤ pid p ∧ pid p ≤ pidMax)
    (h : (chatSystem pid WaitsForVerdict).Exec tr n) (p : P) :
    ∃ k, displayedBy p tr ++ n.toClient p =
        (List.range k).flatMap (fun i => replyText (decide (i % 2 = 1))) ∧
      ((n.toServer p = [] ∧ n.lI p = k) ∨
        (n.toServer p ≠ [] ∧ n.lI p = k + 1)) := by
  have hsmall : ∀ p, pid p < 2 ^ 30 :=
    fun p => (hpid p).2.trans_lt (by decide)
  have hinv := chatInv_exec (admission_waits hsmall) hpid h
  obtain ⟨batches, waiting, hp⟩ := hinv.exchanged p
  have halternates := hp.alternates
  rw [hp.history, List.map_map, List.map_append] at halternates
  have hcount := congrArg List.length halternates
  rw [List.length_append, List.length_map, List.length_map, List.length_map,
    List.length_range] at hcount
  rw [← hcount, List.range_add, List.map_append] at halternates
  obtain ⟨hserved, -⟩ := List.append_inj halternates
    (by rw [List.length_map, List.length_map, List.length_range])
  refine ⟨batches.flatten.length, ?_, ?_⟩
  · have hfalsy : batches.flatten.map LineChoice.falsy =
        (List.range batches.flatten.length).map
          fun i => decide ((i + 1) % 2 = 1) := hserved
    rw [hp.replies, verdictsOn_singles hp.served, hfalsy, List.flatMap_map]
    refine List.flatMap_congr fun i _ => congrArg replyText ?_
    rw [← decide_not, decide_eq_decide]
    omega
  · have hunread := hp.unread
    cases waiting with
    | nil =>
        refine Or.inl ⟨hp.arriving, ?_⟩
        rw [← hcount, List.length_nil, Nat.add_zero]
    | cons choice rest =>
        rw [List.length_cons] at hunread hcount
        have hlen := length_batch_le (hsmall p) (choice :: rest)
        refine Or.inr ⟨fun hnil => ?_, by omega⟩
        rw [← hp.arriving, hnil, List.length_cons, List.length_nil] at hlen
        omega

/-- The first text is corrupted, the second one is not. -/
theorem verdicts_alternate_two_texts :
    ∃ tr n, (chatSystem oneClient WaitsForVerdict).Exec tr n ∧
      displayedBy () tr = ascii "ERR\nOK\n" ∧ n.lI () = 2 ∧
      ∃ k, displayedBy () tr ++ n.toClient () =
          (List.range k).flatMap (fun i => replyText (decide (i % 2 = 1))) ∧
        ((n.toServer () = [] ∧ n.lI () = k) ∨
          (n.toServer () ≠ [] ∧ n.lI () = k + 1)) := by
  have hfirst := (acceptedChat_exec oneClient WaitsForVerdict).step
    (chatStep_generate (p := ()) rfl (by decide) firstText rfl rfl)
  obtain ⟨m, hread, hm, hnone, hcount⟩ := @answered_exec _ _ _ hfirst
    (connected_accepted.sends _ _) [firstText] (by decide) (by decide +kernel)
    (by decide +kernel)
  have hone : m.lI () = 1 := hcount
  have hsecond := hread.step (chatStep_generate (p := ()) hm.inside (by decide)
    secondText (by rw [hone]; rfl) hnone)
  obtain ⟨n, hexec, -, -, hcount'⟩ := @answered_exec _ _ _ hsecond
    (hm.sends _ _) [secondText] (by decide) (by decide +kernel)
    (by simp [hnone, batchText]; rfl)
  refine ⟨_, n, hexec, by decide +kernel, ?_, ?_⟩
  · rw [hcount']
    simp [hone]
  · exact verdicts_alternate (by decide) hexec ()

end Result

end Pvos.Socksrv
