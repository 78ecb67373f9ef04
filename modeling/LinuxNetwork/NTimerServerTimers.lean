import LinuxNetwork.NTimerServer
import LinuxNetwork.SortTimerListLinks

/-!
# Connections and Timers of the Server

The timers of `timer_list` are those of the open connections, one for each. The entries of
`users` outlive their connections with dangling `_timer` fields, so nothing is said about the
entry of a descriptor that is not open; it is not read, because the events of a batch are on
distinct open descriptors, and a connection is closed only by its own event or behind the
batch.

`Registered` ties `users`, the open descriptors and the trace to a list of entries, `Matched`
adds that `timer_list` holds these entries. What an event does to the entries is a `Change`.

## Main results

* `Registered.cbFunc`: the callback closes the connection of its entry.
* `handleEvent_spec`, `Matched.timerHandler`: every event, and what follows a batch, gets
  through and keeps connections and timers matched.
* `step_spec`: so does every step of the event loop.
* `timers_match_connections`: the correspondence over all runs.
-/

open Transition

namespace LinuxNetwork.NTimerServer

open SortTimerList (Entry timers Rep insertEntry firedBy leftBy)

/-! ### Entries and connections -/

/-- **The entries are those of the open connections**: one for each, with the table of users
pointing back to its timer. -/
structure Registered (s : Server) (es : List (Entry ℤ)) : Prop where
  fds : (es.map Entry.userData).Perm s.openFds
  nodup : s.openFds.Nodup
  range : ∀ fd ∈ s.openFds, 0 ≤ fd ∧ fd < FD_LIMIT
  users : ∀ e ∈ es, s.users e.userData = ⟨e.userData, some e.timer⟩
  /-- A timer expires three time slots after its connection was last seen. -/
  deadline : ∀ e ∈ es, e.expire = s.lastSeen e.userData + 3 * TIMESLOT
  /-- A descriptor was closed as often as it was accepted, but for an open connection. -/
  closed : ∀ fd, s.trace.count (.accept fd) = s.trace.count (.close fd) + s.openFds.count fd

variable {fds : Fds} {s s' : Server} {es es' es₁ es₂ : List (Entry ℤ)} {e : Entry ℤ}
  {fd cur : ℤ} {addr : Ptr} {input : Input} {event : Report} {acts : List Action}

/-- The order of the entries does not matter for what is registered. -/
theorem Registered.perm (h : Registered s es) (hperm : es.Perm es') : Registered s es' where
  fds := (hperm.map _).symm.trans h.fds
  nodup := h.nodup
  range := h.range
  users := fun e he => h.users e (hperm.mem_iff.mpr he)
  deadline := fun e he => h.deadline e (hperm.mem_iff.mpr he)
  closed := h.closed

/-- The connection of an entry is open. -/
theorem Registered.mem_openFds (h : Registered s es) (he : e ∈ es) :
    e.userData ∈ s.openFds :=
  h.fds.mem_iff.mp (List.mem_map_of_mem he)

/-- The entry of an open connection, and what stands in front of it and behind it in the list. -/
theorem Registered.exists_split (h : Registered s es) (hfd : fd ∈ s.openFds) :
    ∃ es₁ e es₂, es = es₁ ++ e :: es₂ ∧ e.userData = fd := by
  obtain ⟨e, he, rfl⟩ := List.mem_map.mp (h.fds.mem_iff.mpr hfd)
  obtain ⟨es₁, es₂, rfl⟩ := List.append_of_mem he
  exact ⟨es₁, e, es₂, rfl, rfl⟩

/-- The entries belong to distinct connections, since no descriptor is open twice. -/
theorem Registered.nodup_userData (h : Registered s es) : (es.map Entry.userData).Nodup :=
  h.fds.nodup_iff.mpr h.nodup

/-- An entry is the only one of its connection, so the others are about other descriptors. -/
theorem Registered.userData_ne (h : Registered s (es₁ ++ e :: es₂)) :
    ∀ f ∈ es₁ ++ es₂, f.userData ≠ e.userData := by
  have hnodup := h.nodup_userData
  rw [List.map_append, List.map_cons, List.nodup_middle, ← List.map_append,
    List.nodup_cons] at hnodup
  exact fun f hf heq => hnodup.1 (heq ▸ List.mem_map_of_mem hf)

/-- An entry of a table index in range can be read, and points to the timer. -/
theorem Registered.user (h : Registered s es) (he : e ∈ es) :
    s.user e.userData = some ⟨e.userData, some e.timer⟩ := by
  rw [Server.user, if_pos (h.range _ (h.mem_openFds he)), h.users e he]

/-- There are no more timers than descriptors, which bounds the fuel of every walk over the
list. -/
theorem Registered.length_le (h : Registered s es) : es.length ≤ FD_LIMIT := by
  have hlen : es.length = (s.openFds.map Int.toNat).length := by
    rw [List.length_map, ← h.fds.length_eq, List.length_map]
  have hnodup : (s.openFds.map Int.toNat).Nodup := by
    refine h.nodup.map_on fun x hx y hy hxy => ?_
    have := h.range x hx
    have := h.range y hy
    omega
  have hsub : s.openFds.map Int.toNat ⊆ List.range FD_LIMIT := by
    intro k hk
    obtain ⟨x, hx, rfl⟩ := List.mem_map.mp hk
    have := h.range x hx
    rw [List.mem_range]
    omega
  rw [hlen, ← List.length_range (n := FD_LIMIT)]
  exact (List.subperm_of_subset hnodup hsub).length_le

/-- The actions that concern neither acceptances nor closings. -/
def Action.isCall : Action → Bool
  | .accept _ | .close _ => false
  | .epollAdd _ _ | .epollDel _ _ | .addTimer _ | .adjustTimer _ | .delTimer _ | .alarm => true

/-- A server that differs in its timers, its flags and the calls it recorded has the same
connections registered. -/
theorem Registered.congr (acts : List Action) (h : Registered s es) (hopen : s'.openFds = s.openFds)
    (husers : s'.users = s.users) (hseen : s'.lastSeen = s.lastSeen)
    (htrace : s'.trace = s.trace ++ acts) (hacts : ∀ a ∈ acts, a.isCall = true) :
    Registered s' es where
  fds := hopen ▸ h.fds
  nodup := hopen ▸ h.nodup
  range := hopen ▸ h.range
  users := husers ▸ h.users
  deadline := hseen ▸ h.deadline
  closed := fun fd => by
    have haccept : acts.count (.accept fd) = 0 :=
      List.count_eq_zero.mpr fun hmem => nomatch hacts _ hmem
    have hclose : acts.count (.close fd) = 0 :=
      List.count_eq_zero.mpr fun hmem => nomatch hacts _ hmem
    rw [htrace, hopen, List.count_append, List.count_append, haccept, hclose]
    exact h.closed fd

/-- **The callback** takes the connection of its entry off the epoll instance that the static
variable designates, and closes it. -/
theorem Registered.cbFunc (h : Registered s (e :: es)) :
    ∃ s', s.cbFunc e.userData = some s' ∧ Registered s' es ∧
      s' = { s with
        openFds := s.openFds.erase e.userData
        trace := s.trace ++ [.epollDel staticEpollfd e.userData, .close e.userData] } := by
  obtain ⟨hmem, hperm⟩ := List.cons_perm_iff_perm_erase.mp h.fds
  refine ⟨{ s with
      openFds := s.openFds.erase e.userData
      trace := s.trace ++ [.epollDel staticEpollfd e.userData, .close e.userData] },
    ?_, ⟨hperm, h.nodup.erase _, fun fd hfd => h.range fd (List.mem_of_mem_erase hfd),
      fun f hf => h.users f (List.mem_cons_of_mem e hf),
      fun f hf => h.deadline f (List.mem_cons_of_mem e hf), fun fd => ?_⟩, rfl⟩
  · rw [Server.cbFunc, h.user List.mem_cons_self]
    simp [Server.close, Server.log]
  · have hclosed := h.closed fd
    simp only [List.count_append, List.count_cons, List.count_nil, List.count_erase]
    by_cases hfd : e.userData = fd
    · have : 1 ≤ s.openFds.count fd := List.one_le_count_iff.mpr (hfd ▸ hmem)
      simp only [hfd, beq_self_eq_true, if_true, reduceCtorEq, beq_iff_eq, if_false]
      omega
    · simp only [hfd, beq_iff_eq, if_false, reduceCtorEq, Action.close.injEq]
      omega

/-- What the callbacks of several entries ask of the kernel. -/
def closings (es : List (Entry ℤ)) : List Action :=
  es.flatMap fun e => [.epollDel staticEpollfd e.userData, .close e.userData]

/-- The callbacks of several entries, one after another, close their connections and leave the
others registered. Induction on the entries. -/
theorem Registered.foldlM_cbFunc (fs : List (Entry ℤ)) :
    ∀ {s : Server}, Registered s (fs ++ es) →
      ∃ s', fs.foldlM (fun s e => s.cbFunc e.userData) s = some s' ∧ Registered s' es ∧
        s' = { s with
          openFds := s'.openFds
          trace := s.trace ++ closings fs } := by
  induction fs with
  | nil => exact fun {s} h => ⟨s, rfl, h, by simp [closings]⟩
  | cons e fs ih =>
      intro s h
      obtain ⟨s₁, hrun, h₁, hs₁⟩ := (show Registered s (e :: (fs ++ es)) from h).cbFunc
      obtain ⟨s', hrun', h', hs'⟩ := ih h₁
      refine ⟨s', ?_, h', ?_⟩
      · rw [List.foldlM_cons, hrun]
        exact hrun'
      · rw [hs', hs₁]
        simp [closings]

/-! ### Connections and the timer list -/

/-- **Connections and timers match**: `timer_list` holds the entries of the open
connections. -/
structure Matched (s : Server) (es : List (Entry ℤ)) : Prop where
  rep : Rep s.timerList es
  registered : Registered s es

/-- The inputs that leave connections and timers alone. -/
def Input.keeps : Input → Bool
  | .signals _ | .recv .eagain _ | .none => true
  | .accept _ _ _ | .recv (.data _) _ | .recv .error _ | .recv .closed _ => false

/-- What an event on a descriptor does to the entries. -/
inductive Change (fd : ℤ) : Input → List (Entry ℤ) → List (Entry ℤ) → Prop
  | accept (connfd : ℤ) (addr : Ptr) (cur : ℤ) (es : List (Entry ℤ)) :
      Change fd (.accept connfd addr cur) es
        (insertEntry ⟨addr, cur + 3 * TIMESLOT, connfd⟩ es)
  | restart (bytes : List UInt8) (cur : ℤ) (es₁ es₂ : List (Entry ℤ)) (e : Entry ℤ) :
      e.userData = fd → Change fd (.recv (.data bytes) cur) (es₁ ++ e :: es₂)
        (es₁ ++ insertEntry { e with expire := cur + 3 * TIMESLOT } es₂)
  | close (result : RecvResult) (cur : ℤ) (es₁ es₂ : List (Entry ℤ)) (e : Entry ℤ) :
      result = .error ∨ result = .closed → e.userData = fd →
      Change fd (.recv result cur) (es₁ ++ e :: es₂) (es₁ ++ es₂)
  | keep (input : Input) (es : List (Entry ℤ)) : input.keeps = true → Change fd input es es

/-- The calls of `adjust_timer` and `del_timer` among the actions are on timers of the
entries. -/
def CallsMembers (es : List (Entry ℤ)) (acts : List Action) : Prop :=
  ∀ p, .adjustTimer p ∈ acts ∨ .delTimer p ∈ acts → p ∈ timers es

/-- **A new timer**, for whatever index of `users`, is added to the list. -/
theorem Matched.addTimer (h : Matched s es) (haddr : s.timerList.heap addr = none)
    (expire userData : ℤ) :
    ∃ l, (s.timerList.newTimer addr expire userData).addTimer FD_LIMIT (some addr) = some l ∧
      Rep l (insertEntry ⟨addr, expire, userData⟩ es) := by
  have haddr' : addr ∉ timers es := fun hmem => by
    obtain ⟨t, ht⟩ := h.rep.allocated addr hmem
    exact nomatch ht.symm.trans haddr
  have hrep : Rep (s.timerList.newTimer addr expire userData) es :=
    h.rep.congr_heap fun q hq =>
      Function.update_of_ne (ne_of_mem_of_not_mem hq haddr') _ _
  obtain ⟨l, hadd, hrep', -⟩ := hrep.addTimer (e := ⟨addr, expire, userData⟩)
    (Function.update_self ..) rfl haddr' h.registered.length_le
  exact ⟨l, hadd, hrep'⟩

/-- **A new connection** gets a timer that expires three time slots from now, and its entry of
`users` points to it. -/
theorem Matched.handleAccept (h : Matched s es) (fds : Fds) (hfd : 0 ≤ fd ∧ fd < FD_LIMIT)
    (hnew : fd ∉ s.openFds) (haddr : s.timerList.heap addr = none) (cur : ℤ) :
    ∃ s', handleAccept fds s fd addr cur = some s' ∧
      Matched s' (insertEntry ⟨addr, cur + 3 * TIMESLOT, fd⟩ es) ∧
      s'.openFds = fd :: s.openFds ∧
      s'.trace = s.trace ++ [.accept fd, .epollAdd fds.epollfd fd, .addTimer addr] := by
  have hreg := h.registered
  obtain ⟨l, hadd, hrep⟩ := h.addTimer haddr (cur + 3 * TIMESLOT) fd
  have hopen : s.accept fd =
      { s.log (.accept fd) with openFds := fd :: s.openFds } := if_neg (by omega)
  refine ⟨{ s with
      users := Function.update s.users fd ⟨fd, some addr⟩
      timerList := l
      openFds := fd :: s.openFds
      lastSeen := Function.update s.lastSeen fd cur
      trace := s.trace ++ [.accept fd, .epollAdd fds.epollfd fd, .addTimer addr] },
    ?_, ⟨hrep, ?_, ?_, ?_, ?_, ?_, ?_⟩, rfl, rfl⟩
  · simp [NTimerServer.handleAccept, hopen, Server.setUser, Server.user, hfd, Server.addTimer,
      Server.log, hadd]
  · exact ((StableQueue.perm_insert _ es).map Entry.userData).trans (hreg.fds.cons fd)
  · exact List.nodup_cons.mpr ⟨hnew, hreg.nodup⟩
  · intro x hx
    rcases List.mem_cons.mp hx with rfl | hx
    · exact hfd
    · exact hreg.range x hx
  · intro f hf
    rcases StableQueue.mem_insert.mp hf with rfl | hf
    · exact Function.update_self ..
    · have hne : f.userData ≠ fd := ne_of_mem_of_not_mem (hreg.mem_openFds hf) hnew
      exact (Function.update_of_ne hne _ _).trans (hreg.users f hf)
  · intro f hf
    rcases StableQueue.mem_insert.mp hf with rfl | hf
    · simp
    · have hne : f.userData ≠ fd := ne_of_mem_of_not_mem (hreg.mem_openFds hf) hnew
      simp only [Function.update_of_ne hne]
      exact hreg.deadline f hf
  · intro x
    have hclosed := hreg.closed x
    simp only [List.count_append, List.count_cons, List.count_nil]
    by_cases hx : fd = x
    · simp only [hx, beq_self_eq_true, if_true, reduceCtorEq, beq_iff_eq, if_false]
      omega
    · simp only [hx, beq_iff_eq, if_false, reduceCtorEq, Action.accept.injEq]
      omega

/-- **Data** restart the timer of their connection, which is moved towards the tail of the list. -/
theorem Matched.data (h : Matched s (es₁ ++ e :: es₂)) (bytes : List UInt8) (cur : ℤ) :
    ∃ s', handleClient s e.userData (.data bytes) cur = some s' ∧
      Matched s' (es₁ ++ insertEntry { e with expire := cur + 3 * TIMESLOT } es₂) ∧
      s'.openFds = s.openFds ∧ s'.trace = s.trace ++ [.adjustTimer e.timer] := by
  have hreg := h.registered
  have hlen := hreg.length_le
  obtain ⟨l₁, hset, hrep₁, -, -⟩ := h.rep.setExpire (cur + 3 * TIMESLOT)
  obtain ⟨l, hadj, hrep, -⟩ := hrep₁.adjustTimer FD_LIMIT (by simp at hlen; omega)
  have hmem : ∀ f, f ∈ es₁ ++ insertEntry { e with expire := cur + 3 * TIMESLOT } es₂ →
      f = { e with expire := cur + 3 * TIMESLOT } ∨ f ∈ es₁ ++ es₂ := by
    intro f hf
    simp only [List.mem_append, insertEntry, StableQueue.mem_insert] at hf ⊢
    tauto
  have hold : ∀ f ∈ es₁ ++ es₂, f ∈ es₁ ++ e :: es₂ := by
    intro f hf
    simp only [List.mem_append, List.mem_cons] at hf ⊢
    tauto
  have hne := hreg.userData_ne
  refine ⟨{ s with
      timerList := l
      lastSeen := Function.update s.lastSeen e.userData cur
      trace := s.trace ++ [.adjustTimer e.timer] },
    ?_, ⟨hrep, ?_, hreg.nodup, hreg.range, ?_, ?_, ?_⟩, rfl, rfl⟩
  · simp [handleClient, hreg.user (e := e) (by simp), Server.adjustTimer, hset, hadj,
      Server.log]
  · refine List.Perm.trans ?_ hreg.fds
    rw [List.map_append, List.map_append]
    exact List.Perm.append_left _ ((StableQueue.perm_insert _ es₂).map Entry.userData)
  · intro f hf
    rcases hmem f hf with rfl | hf
    · exact hreg.users e (by simp)
    · exact hreg.users f (hold f hf)
  · intro f hf
    rcases hmem f hf with rfl | hf
    · simp
    · simp only [Function.update_of_ne (hne f hf)]
      exact hreg.deadline f (hold f hf)
  · have hcall : Registered { s with trace := s.trace ++ [.adjustTimer e.timer] }
        (es₁ ++ e :: es₂) :=
      hreg.congr [.adjustTimer e.timer] rfl rfl rfl rfl (by simp [Action.isCall])
    exact hcall.closed

/-- **A closed connection** loses its timer: it is taken off the epoll instance of the static
variable, closed, and its timer deleted. -/
theorem Matched.closeClient (h : Matched s (es₁ ++ e :: es₂)) :
    ∃ s', closeClient s e.userData (some e.timer) = some s' ∧ Matched s' (es₁ ++ es₂) ∧
      s'.openFds = s.openFds.erase e.userData ∧
      s'.trace = s.trace ++
        [.epollDel staticEpollfd e.userData, .close e.userData, .delTimer e.timer] := by
  obtain ⟨s₁, hcb, hreg, hs₁⟩ := (h.registered.perm List.perm_middle).cbFunc
  obtain ⟨l, hdel, hrep, -⟩ := h.rep.delTimer
  have hlist : s₁.timerList = s.timerList := by rw [hs₁]
  refine ⟨{ s₁.log (.delTimer e.timer) with timerList := l }, ?_, ⟨hrep, ?_⟩, ?_, ?_⟩
  · simp [NTimerServer.closeClient, hcb, Server.delTimer, hlist, hdel]
  · exact hreg.congr [.delTimer e.timer] rfl rfl rfl rfl (by simp [Action.isCall])
  · rw [hs₁]
    rfl
  · rw [hs₁]
    simp [Server.log]

/-- **What follows a batch** fires the expired entries in front of the first unexpired one
and keeps the others. -/
theorem Matched.timerHandler (h : Matched s es) (cur : ℤ) :
    ∃ s', timerHandler s cur = some s' ∧ Matched s' (leftBy cur es) ∧
      s' = { s with
        timerList := s'.timerList
        openFds := s'.openFds
        trace := s.trace ++ (closings (firedBy cur es) ++ [.alarm]) } := by
  have hsplit : firedBy cur es ++ leftBy cur es = es := List.takeWhile_append_dropWhile
  obtain ⟨s₁, hfold, hreg, hs₁⟩ :=
    Registered.foldlM_cbFunc (firedBy cur es) (hsplit.symm ▸ h.registered)
  have hcb : ∀ p (l : SortTimerList ℤ) (o : Server) t, l.heap p = some t →
      callback p l o = (o.cbFunc t.userData).map fun o => (l, o) := by
    intro p l o t ht
    rw [callback, ht]
    cases hcb : o.cbFunc t.userData <;> simp [hcb]
  obtain ⟨l, htick, hrep, -⟩ := Rep.tick callback (fun _ u s => s.cbFunc u) hcb cur h.rep
    h.registered.length_le hfold
  refine ⟨{ s₁.log .alarm with timerList := l }, ?_, ⟨hrep, ?_⟩, ?_⟩
  · simp [NTimerServer.timerHandler, htick]
  · exact hreg.congr [.alarm] rfl rfl rfl rfl (by simp [Action.isCall])
  · rw [hs₁]
    simp [Server.log]

/-- The loop over the signal bytes touches the flags only. Induction on the bytes. -/
theorem handleSignals_eq (s : Server) (signals : List ℤ) :
    ∃ timeout stopServer,
      handleSignals s signals = { s with timeout := timeout, stopServer := stopServer } := by
  induction signals generalizing s with
  | nil => exact ⟨s.timeout, s.stopServer, rfl⟩
  | cons sig signals ih =>
      rw [handleSignals, List.foldl_cons]
      split
      · exact ih { s with timeout := true }
      · split
        · exact ih { s with stopServer := true }
        · exact ih s

/-- The input is that of the branch which the event takes. -/
def Takes (fds : Fds) (event : Report) : Input → Prop
  | .accept _ _ _ => event.fd = fds.listenfd
  | .signals _ => event.fd ≠ fds.listenfd ∧ event.fd = fds.pipefd0 ∧ event.epollin = true
  | .recv _ _ => event.fd ≠ fds.listenfd ∧ event.fd ≠ fds.pipefd0 ∧ event.epollin = true
  | .none => event.fd ≠ fds.listenfd ∧ event.epollin = false

/-- **An event is handled**: connections and timers are matched again, the entries changed as
the input tells, no connection but that of the event was closed, and `adjust_timer` and
`del_timer` were called on timers of the list only. -/
def Handled (fd : ℤ) (input : Input) (s : Server) (es : List (Entry ℤ)) (s' : Server) : Prop :=
  ∃ es' acts, Matched s' es' ∧ Change fd input es es' ∧
    (∀ x ∈ s.openFds, x ≠ fd → x ∈ s'.openFds) ∧ s'.trace = s.trace ++ acts ∧
    CallsMembers es acts

/-- An input that asks for nothing is handled by doing nothing, so that connections and timers
stay matched. -/
theorem Matched.handled (h : Matched s es) (hkeeps : input.keeps = true) :
    Handled fd input s es s :=
  ⟨es, [], h, .keep _ es hkeeps, fun _ hx _ => hx, (List.append_nil _).symm,
    fun p hp => absurd hp (by simp)⟩

/-- **The branch of the signal pipe** leaves connections and timers alone. -/
theorem Matched.signals (h : Matched s es) (signals : List ℤ) :
    Handled fd (.signals (some signals)) s es (handleSignals s signals) := by
  obtain ⟨timeout, stopServer, heq⟩ := handleSignals_eq s signals
  rw [heq]
  exact ⟨es, [], ⟨h.rep, h.registered.congr [] rfl rfl rfl (List.append_nil _).symm nofun⟩,
    .keep _ es rfl, fun _ hx _ => hx, (List.append_nil _).symm,
    fun p hp => absurd hp (by simp)⟩

/-- **The branch of a client descriptor** that is open. An error and the end of the connection
are handled alike. -/
theorem Matched.handleClient (h : Matched s es) (hfd : fd ∈ s.openFds) (result : RecvResult)
    (cur : ℤ) :
    ∃ s', handleClient s fd result cur = some s' ∧ Handled fd (.recv result cur) s es s' := by
  obtain ⟨es₁, e, es₂, rfl, rfl⟩ := h.registered.exists_split hfd
  have huser := h.registered.user (e := e) (by simp)
  have hclose : result = .error ∨ result = .closed →
      ∃ s', NTimerServer.closeClient s e.userData (some e.timer) = some s' ∧
        Handled e.userData (.recv result cur) s (es₁ ++ e :: es₂) s' := by
    intro hresult
    obtain ⟨s', hrun, hmatched, hopen, htrace⟩ := h.closeClient
    refine ⟨s', hrun, _, _, hmatched, .close _ _ _ _ e hresult rfl, ?_, htrace, ?_⟩
    · intro x hx hne
      rw [hopen]
      exact (List.mem_erase_of_ne hne).mpr hx
    · intro p hp
      simp only [List.mem_cons, List.not_mem_nil, reduceCtorEq, or_false, false_or,
        Action.delTimer.injEq] at hp
      simp [hp]
  unfold NTimerServer.handleClient
  rw [huser]
  cases result with
  | data bytes =>
      obtain ⟨s', hrun, hmatched, hopen, htrace⟩ := h.data bytes cur
      refine ⟨s', ?_, _, _, hmatched, .restart bytes cur _ _ e rfl, fun x hx _ => hopen ▸ hx,
        htrace, ?_⟩
      · rw [← hrun, NTimerServer.handleClient, huser]
      · intro p hp
        simp only [List.mem_cons, List.not_mem_nil, reduceCtorEq, or_false,
          Action.adjustTimer.injEq] at hp
        simp [hp]
  | eagain => exact ⟨s, rfl, h.handled rfl⟩
  | error => exact hclose (.inl rfl)
  | closed => exact hclose (.inr rfl)

/-- **Every event** gets through and is handled: that of the listening socket, of the signal
pipe and of an open client. -/
theorem handleEvent_spec (h : Matched s es)
    (hevent : event.fd = fds.listenfd ∨ event.fd = fds.pipefd0 ∨ event.fd ∈ s.openFds)
    {batch : Option (List Report)} (hinput : Assumed fds ⟨s, batch⟩ (.event input))
    (htakes : Takes fds event input) :
    ∃ s', handleEvent fds s event input = some s' ∧ Handled event.fd input s es s' := by
  unfold handleEvent
  cases input with
  | accept connfd addr cur =>
      obtain ⟨hlo, hhi, hnew, -, -, haddr⟩ := hinput
      obtain ⟨s', hrun, hmatched, hopen, htrace⟩ := h.handleAccept fds ⟨hlo, hhi⟩ hnew haddr cur
      rw [if_pos (show event.fd = fds.listenfd from htakes)]
      exact ⟨s', hrun, _, _, hmatched, .accept connfd addr cur es,
        fun x hx _ => hopen ▸ List.mem_cons_of_mem connfd hx, htrace,
        fun p hp => absurd hp (by simp)⟩
  | signals received =>
      obtain ⟨hlisten, hpipe, hin⟩ := htakes
      rw [if_neg hlisten, if_pos ⟨hpipe, hin⟩]
      cases received with
      | none => exact ⟨s, rfl, h.handled rfl⟩
      | some signals => exact ⟨_, rfl, h.signals signals⟩
  | none =>
      obtain ⟨hlisten, hin⟩ := htakes
      refine ⟨s, ?_, h.handled rfl⟩
      simp [hlisten, hin]
  | recv result cur =>
      obtain ⟨hlisten, hpipe, hin⟩ := htakes
      rw [if_neg hlisten, if_neg (fun hp => hpipe hp.1), if_pos hin]
      exact h.handleClient ((hevent.resolve_left hlisten).resolve_left hpipe) result cur

/-! ### Runs -/

/-- The events still to handle are on distinct open descriptors. -/
def BatchOpen (fds : Fds) (s : State) : Prop :=
  ∀ batch, s.batch = some batch → (batch.map Report.fd).Nodup ∧
    ∀ event ∈ batch, event.fd = fds.listenfd ∨ event.fd = fds.pipefd0 ∨
      event.fd ∈ s.server.openFds

/-- The step is one that the event loop can take at this point, with an input of the right
kind. -/
def Enabled (fds : Fds) (s : State) : Act → Prop
  | .wait _ => s.batch = none ∧ s.server.stopServer = false
  | .event input => ∃ event batch, s.batch = some (event :: batch) ∧ Takes fds event input
  | .endBatch _ => s.batch = some []

/-- What a step of the event loop does to the entries. -/
inductive EntriesStep (s : State) : Act → List (Entry ℤ) → List (Entry ℤ) → Prop
  | wait (events : List Report) (es : List (Entry ℤ)) : EntriesStep s (.wait events) es es
  | event (event : Report) (batch : List Report) (input : Input) (es es' : List (Entry ℤ)) :
      s.batch = some (event :: batch) → Change event.fd input es es' →
      EntriesStep s (.event input) es es'
  | tick (cur : ℤ) (es : List (Entry ℤ)) : EntriesStep s (.endBatch cur) es (leftBy cur es)
  | skip (cur : ℤ) (es : List (Entry ℤ)) : EntriesStep s (.endBatch cur) es es

variable {s t : State} {a : Act}

/-- An input of the wrong kind is no input: where the branch gets through, the input is one that
it takes. -/
theorem takes_of_handleEvent {s s' : Server} (h : handleEvent fds s event input = some s') :
    Takes fds event input := by
  unfold handleEvent at h
  split at h
  case isTrue hlisten => cases input <;> first | exact hlisten | cases h
  case isFalse hlisten =>
      split at h
      case isTrue hpipe => cases input <;> first | exact ⟨hlisten, hpipe⟩ | cases h
      case isFalse hpipe =>
          split at h
          case isTrue hin =>
              cases input <;>
                first | exact ⟨hlisten, fun hp => hpipe ⟨hp, hin⟩, hin⟩ | cases h
          case isFalse hin =>
              cases input <;>
                first | exact ⟨hlisten, Bool.eq_false_iff.mpr hin⟩ | cases h

/-- `epoll_wait` fills the batch, if there is none and the loop is not to stop. -/
theorem step_wait_eq_some {events : List Report} :
    (server fds).step s (.wait events) = some t ↔
      s.batch = none ∧ s.server.stopServer = false ∧ t = { s with batch := some events } := by
  cases hb : s.batch <;> cases hstop : s.server.stopServer <;>
    simp [server, State.step, hb, hstop, eq_comm]

/-- An event is handled and leaves the batch, whose other events stay in their order. -/
theorem step_event_eq_some :
    (server fds).step s (.event input) = some t ↔
      ∃ event batch s', s.batch = some (event :: batch) ∧
        handleEvent fds s.server event input = some s' ∧ t = ⟨s', some batch⟩ := by
  rcases hb : s.batch with _ | _ | ⟨event, batch⟩ <;>
    simp [server, State.step, hb, Option.bind_eq_some_iff, eq_comm (b := t)]

/-- The end of the batch, at which `timer_handler` is called if its flag is up. -/
theorem step_endBatch_eq_some :
    (server fds).step s (.endBatch cur) = some t ↔
      ∃ s', s.batch = some [] ∧ endBatch s.server cur = some s' ∧ t = ⟨s', none⟩ := by
  rcases hb : s.batch with _ | _ | ⟨event, batch⟩ <;>
    simp [server, State.step, hb, Option.bind_eq_some_iff, eq_comm (b := t)]

/-- A step that is taken is enabled: the loop stands where the step begins, and the input is of
the right kind. -/
theorem enabled_of_step (h : (server fds).step s a = some t) : Enabled fds s a := by
  cases a with
  | wait events =>
      obtain ⟨hb, hstop, -⟩ := step_wait_eq_some.mp h
      exact ⟨hb, hstop⟩
  | event input =>
      obtain ⟨event, batch, s', hb, hs', -⟩ := step_event_eq_some.mp h
      exact ⟨event, batch, hb, takes_of_handleEvent hs'⟩
  | endBatch cur =>
      obtain ⟨-, hb, -⟩ := step_endBatch_eq_some.mp h
      exact hb

/-- **Every step** that the event loop can take, with inputs it may assume, gets through,
keeps connections and timers matched, and calls `adjust_timer` and `del_timer` on timers of
the list only. -/
theorem step_spec (h : Matched s.server es) (hbatch : BatchOpen fds s)
    (hassumed : Assumed fds s a) (henabled : Enabled fds s a) :
    ∃ t es' acts, (server fds).step s a = some t ∧ Matched t.server es' ∧ BatchOpen fds t ∧
      EntriesStep s a es es' ∧ t.server.trace = s.server.trace ++ acts ∧
      CallsMembers es acts := by
  have hnone : CallsMembers es [] := fun p hp => absurd hp (by simp)
  cases a with
  | wait events =>
      obtain ⟨hb, hstop⟩ := henabled
      refine ⟨{ s with batch := some events }, es, [], ?_, h, ?_, .wait events es,
        (List.append_nil _).symm, hnone⟩
      · simp [server, State.step, hb, hstop]
      · rintro batch hbatch'
        obtain rfl := Option.some.inj hbatch'
        exact hassumed
  | event input =>
      obtain ⟨event, batch, hb, htakes⟩ := henabled
      obtain ⟨hnodup, hopen⟩ := hbatch _ hb
      obtain ⟨s', hrun, es', acts, hmatched, hchange, hkeep, htrace, hcalls⟩ :=
        handleEvent_spec h (hopen event List.mem_cons_self) hassumed htakes
      refine ⟨⟨s', some batch⟩, es', acts, ?_, hmatched, ?_, .event event batch _ _ _ hb hchange,
        htrace, hcalls⟩
      · simp [server, State.step, hb, hrun]
      · rintro batch' hbatch'
        obtain rfl := Option.some.inj hbatch'
        rw [List.map_cons, List.nodup_cons] at hnodup
        refine ⟨hnodup.2, fun event' hevent' => ?_⟩
        have hne : event'.fd ≠ event.fd := fun heq =>
          hnodup.1 (heq ▸ List.mem_map_of_mem hevent')
        rcases hopen event' (List.mem_cons_of_mem event hevent') with hl | hp | ho
        · exact .inl hl
        · exact .inr (.inl hp)
        · exact .inr (.inr (hkeep _ ho hne))
  | endBatch cur =>
      have hb : s.batch = some [] := henabled
      have hempty : ∀ s' : Server, BatchOpen fds ⟨s', none⟩ := fun _ _ hbatch' =>
        nomatch hbatch'
      cases htimeout : s.server.timeout with
      | false =>
          refine ⟨⟨s.server, none⟩, es, [], ?_, h, hempty _, .skip cur es,
            (List.append_nil _).symm, hnone⟩
          simp [server, State.step, hb, endBatch, htimeout]
      | true =>
          obtain ⟨s', hrun, hmatched, hs'⟩ := h.timerHandler cur
          refine ⟨⟨{ s' with timeout := false }, none⟩, leftBy cur es,
            closings (firedBy cur es) ++ [.alarm], ?_, ?_, hempty _, .tick cur es, ?_, ?_⟩
          · simp [server, State.step, hb, endBatch, htimeout, hrun]
          · exact ⟨hmatched.rep, hmatched.registered.congr [] rfl rfl rfl
              (List.append_nil _).symm nofun⟩
          · rw [hs']
          · exact fun p hp => absurd hp (by simp [closings])

/-- The invariant of the event loop. -/
structure Coherent (fds : Fds) (s : State) : Prop where
  matched : ∃ es, Matched s.server es
  batch : BatchOpen fds s

/-- Before the first iteration there are neither connections nor timers. -/
theorem matched_new (users : ℤ → ClientData) : Matched (.new users) [] :=
  ⟨SortTimerList.rep_new, .nil, List.nodup_nil, nofun, nofun, nofun, fun _ => rfl⟩

/-- **The invariant holds in all states** that the event loop reaches. Induction on the run. -/
theorem coherent (h : (server fds).ReachableWhile (Assumed fds) s) : Coherent fds s := by
  refine System.Inductive.holds ⟨?_, ?_⟩ h
  · rintro _ ⟨users, rfl⟩
    exact ⟨⟨[], matched_new users⟩, fun _ hb => nomatch hb⟩
  · rintro s a t ⟨⟨es, hmatched⟩, hbatch⟩ hassumed hstep
    obtain ⟨t', es', acts, hstep', hmatched', hbatch', -⟩ :=
      step_spec hmatched hbatch hassumed (enabled_of_step hstep)
    obtain rfl := Option.some.inj (hstep'.symm.trans hstep)
    exact ⟨⟨es', hmatched'⟩, hbatch'⟩

/-- **Open connections and timers correspond one to one.** In every state that the event
loop reaches with inputs it may assume, the list holds entries such that every open client
descriptor has exactly one of them, to whose timer its entry of `users` points, and no other
entry is in the list; every descriptor was closed as often as it was accepted, but for those
that are open. The next step, if it is one that the loop can take, gets through, and calls
`adjust_timer` and `del_timer` only on timers that are in the list. -/
theorem timers_match_connections (h : (server fds).ReachableWhile (Assumed fds) s) :
    ∃ es, Rep s.server.timerList es ∧
      (∀ fd ∈ s.server.openFds, ∃ e, es.filter (fun e => decide (e.userData = fd)) = [e] ∧
        s.server.users fd = ⟨fd, some e.timer⟩) ∧
      (∀ e ∈ es, e.userData ∈ s.server.openFds) ∧
      (∀ fd, s.server.trace.count (.accept fd) = s.server.trace.count (.close fd) +
        if fd ∈ s.server.openFds then 1 else 0) ∧
      ∀ a, Assumed fds s a → Enabled fds s a →
        ∃ t acts, (server fds).step s a = some t ∧
          t.server.trace = s.server.trace ++ acts ∧
          ∀ p, .adjustTimer p ∈ acts ∨ .delTimer p ∈ acts → p ∈ timers es := by
  obtain ⟨⟨es, hmatched⟩, hbatch⟩ := coherent h
  have hreg := hmatched.registered
  refine ⟨es, hmatched.rep, fun fd hfd => ?_, fun e he => hreg.mem_openFds he, fun fd => ?_,
    fun a hassumed henabled => ?_⟩
  · obtain ⟨es₁, e, es₂, rfl, rfl⟩ := hreg.exists_split hfd
    refine ⟨e, ?_, hreg.users e (by simp)⟩
    have hother := hreg.userData_ne
    have h₁ : es₁.filter (fun f => decide (f.userData = e.userData)) = [] :=
      List.filter_eq_nil_iff.mpr fun f hf => by simpa using hother f (by simp [hf])
    have h₂ : es₂.filter (fun f => decide (f.userData = e.userData)) = [] :=
      List.filter_eq_nil_iff.mpr fun f hf => by simpa using hother f (by simp [hf])
    rw [List.filter_append, List.filter_cons, h₁, h₂]
    simp
  · rw [hreg.closed fd, List.Nodup.count hreg.nodup]
  · obtain ⟨t, -, acts, hstep, -, -, -, htrace, hcalls⟩ :=
      step_spec hmatched hbatch hassumed henabled
    exact ⟨t, acts, hstep, htrace, hcalls⟩

/-- A connection is closed by its peer, its descriptor and its timer's address are reused
within the batch, and data arrive on the new connection. -/
theorem timers_match_connections_example :
    ∃ (s : State) (es : List (Entry ℤ)), Rep s.server.timerList es ∧
      s.server.openFds = [8, 7] ∧
      (∀ fd ∈ s.server.openFds, ∃ e, es.filter (fun e => decide (e.userData = fd)) = [e] ∧
        s.server.users fd = ⟨fd, some e.timer⟩) := by
  have hinit : (server ⟨3, 4, 6⟩).ReachableWhile (Assumed ⟨3, 4, 6⟩)
      ⟨.new fun _ => ⟨0, none⟩, none⟩ := .init ⟨_, rfl⟩
  obtain ⟨s, hreach, hs⟩ := System.exists_reachableWhile hinit
    [.wait [⟨3, true⟩], .event (.accept 7 1 100), .endBatch 100,
      .wait [⟨7, true⟩, ⟨3, true⟩], .event (.recv .closed 101), .event (.accept 7 1 102),
      .endBatch 103, .wait [⟨3, true⟩, ⟨7, true⟩], .event (.accept 8 2 104),
      .event (.recv (.data [65]) 104)]
    (fun s => decide (s.server.openFds = [8, 7])) (by decide +kernel)
  obtain ⟨es, hrep, hopen, -⟩ := timers_match_connections hreach
  exact ⟨s, es, hrep, of_decide_eq_true hs, hopen⟩

end LinuxNetwork.NTimerServer
