import BoruixKernel.Fs.Socket

/-!
# The peers of sockets

A socket is connected if it has a peer, and then the peer's peer is the socket.  Three calls
break this: `sockfs_bind` makes an unconnected socket `Connected` without a peer,
`sockfs_listen` takes a connected socket out of that state and leaves its peer, and
`sockfs_connect` gives a client that has a peer a new one without telling the old one.  As
long as none of them happens the sockets stay paired.

`sockfs_connect` puts the server's end of a connection at the end of the backlog, and
`sockfs_accept` takes the one at the end.  Connections are accepted in the order they were made
as long as no two of them are waiting when one is accepted.
-/

namespace BoruixKernel

open List

open Interleaving (Config Event Exec Reach)

namespace SockState

/-- The connected sockets are those with a peer, and peers are peers of each other. -/
def Paired (s : SockState) : Prop :=
  ∀ a, ((s.socks a).state = .Connected ↔ (s.socks a).peer ≠ none) ∧
    ∀ b, (s.socks a).peer = some b → (s.socks b).peer = some a

/-- No unconnected socket is bound, none that is connected listens, and none that has a peer
connects. -/
def PairsUp (s : SockState) : SockSection → Prop
  | .bind a => a ∈ s.handles → (s.socks a).state ≠ .Unconnected
  | .listen a => a ∈ s.handles → (s.socks a).state ≠ .Connected
  | .connect client server =>
    client ∈ s.handles → server ∈ s.handles → (s.socks server).state = .Listening →
      client ≠ server → (s.socks client).peer = none
  | _ => True

instance (s : SockState) : ∀ sec, Decidable (s.PairsUp sec)
  | .create _ | .bind _ | .listen _ | .connect .. | .accept _ | .read .. | .write .. | .deliver ..
  | .wait _ | .wakeOne _ | .deadlock => by unfold PairsUp; infer_instance

/-- Tasks make such calls only. -/
def RunsPairUp (cfg : Config SockState SockSection) : Event SockSection → Prop
  | .run t => ∀ sec ∈ (cfg.todo t).head?, cfg.shared.PairsUp sec
  | .call .. => True

instance (cfg : Config SockState SockSection) : ∀ ev, Decidable (RunsPairUp cfg ev)
  | .run _ | .call .. => by unfold RunsPairUp; infer_instance

/-- Peers, sockets with a node and sockets to be accepted have been created. -/
structure PairInv (s : SockState) : Prop where
  paired : s.Paired
  peer_lt : ∀ {a b}, (s.socks a).peer = some b → b < s.next
  handle_lt : ∀ {a}, a ∈ s.handles → a < s.next
  backlog_lt : ∀ {v a}, a ∈ (s.socks v).backlog → a < s.next

variable {s s' : SockState}

theorem PairInv.init : PairInv .init :=
  ⟨fun _ => ⟨⟨nofun, fun h => (h rfl).elim⟩, nofun⟩, nofun, nofun, nofun⟩

/-- A socket that has not been created has no peer. -/
theorem PairInv.peer_eq_none (h : s.PairInv) (ha : s.next ≤ a) : (s.socks a).peer = none := by
  cases hpeer : (s.socks a).peer with
  | none => rfl
  | some b => exact ((h.peer_lt (((h.paired a).2 b hpeer))).not_ge ha).elim

/-- Changes to one socket that keep its peer, and keep it connected if it is. -/
theorem PairInv.modify (h : s.PairInv) (a : Nat) (hpeer : (f (s.socks a)).peer = (s.socks a).peer)
    (hstate : (f (s.socks a)).state = .Connected ↔ (s.socks a).state = .Connected)
    (hbacklog : ∀ x ∈ (f (s.socks a)).backlog, x ∈ (s.socks a).backlog) :
    (s.modify a f).PairInv := by
  have hpeers : ∀ b, ((s.modify a f).socks b).peer = (s.socks b).peer :=
    fun b => apply_modify SockInner.peer hpeer
  refine ⟨fun b => ⟨?_, fun c hc => ?_⟩, fun hc => ?_, h.handle_lt, fun {v x} hx => ?_⟩
  · rw [hpeers]
    by_cases hb : b = a
    · subst hb
      rw [socks_modify_self, hstate]
      exact (h.paired b).1
    · rw [socks_modify_ne hb]
      exact (h.paired b).1
  · rw [hpeers] at hc ⊢
    exact (h.paired b).2 c hc
  · rw [hpeers] at hc
    exact h.peer_lt hc
  · by_cases hv : v = a
    · subst hv
      rw [socks_modify_self] at hx
      exact h.backlog_lt (hbacklog x hx)
    · rw [socks_modify_ne hv] at hx
      exact h.backlog_lt hx

/-- The socket that is created is the next one. -/
theorem PairInv.create (h : s.PairInv) (ty : SockType) : (s.create ty).PairInv := by
  have hpeers : ∀ b, ((s.create ty).socks b).peer = (s.socks b).peer := by
    intro b
    by_cases hb : b = s.next
    · subst hb
      rw [socks_create_next, h.peer_eq_none (Nat.le_refl _)]
      rfl
    · rw [socks_create_ne hb]
  refine ⟨fun b => ⟨?_, fun c hc => ?_⟩, fun hc => ?_, fun {a} ha => ?_, fun {v x} hx => ?_⟩
  · by_cases hb : b = s.next
    · subst hb
      rw [socks_create_next]
      exact ⟨nofun, fun hne => (hne rfl).elim⟩
    · rw [socks_create_ne hb]
      exact (h.paired b).1
  · rw [hpeers] at hc ⊢
    exact (h.paired b).2 c hc
  · rw [hpeers] at hc
    exact Nat.lt_succ_of_lt (h.peer_lt hc)
  · rcases mem_append.mp ha with ha | ha
    · exact Nat.lt_succ_of_lt (h.handle_lt ha)
    · exact mem_singleton.mp ha ▸ Nat.lt_succ_self _
  · by_cases hv : v = s.next
    · subst hv
      rw [socks_create_next] at hx
      cases hx
    · rw [socks_create_ne hv] at hx
      exact Nat.lt_succ_of_lt (h.backlog_lt hx)

/-! ## The two ends of a new connection -/

theorem link_peer (a : Nat) : ((s.link client server).socks a).peer =
    if a = client then some s.next else if a = s.next then some client else (s.socks a).peer := by
  rw [link, apply_modify SockInner.peer rfl]
  by_cases hc : a = client
  · subst hc
    rw [if_pos rfl, socks_modify_self]
  · rw [if_neg hc, socks_modify_ne hc]
    by_cases hn : a = s.next
    · subst hn
      simp
    · simp [hn]

theorem link_state (a : Nat) : ((s.link client server).socks a).state =
    if a = client ∨ a = s.next then .Connected else (s.socks a).state := by
  rw [link, apply_modify SockInner.state rfl]
  by_cases hc : a = client
  · subst hc
    rw [if_pos (.inl rfl), socks_modify_self]
  · rw [socks_modify_ne hc]
    by_cases hn : a = s.next
    · subst hn
      simp
    · simp [hc, hn]

theorem link_backlog (v : Nat) : ((s.link client server).socks v).backlog =
    (if v = s.next then [] else (s.socks v).backlog) ++ if server = v then [s.next] else [] := by
  have hold : ∀ f : SockInner → SockInner, (∀ x, (f x).backlog = x.backlog) →
      (((modify { s with
        socks := Function.update s.socks s.next
          { SockInner.new (s.socks server).ty with state := .Connected, peer := some client }
        next := s.next + 1 } client f).socks v).backlog =
        if v = s.next then [] else (s.socks v).backlog) := by
    intro f hf
    rw [apply_modify SockInner.backlog (hf _)]
    by_cases hv : v = s.next
    · subst hv
      simp [SockInner.new]
    · simp [hv]
  by_cases hv : server = v
  · subst hv
    rw [link, socks_modify_self, if_pos rfl, ← hold]
    exact fun _ => rfl
  · rw [link, socks_modify_ne (Ne.symm hv), if_neg hv, append_nil, hold]
    exact fun _ => rfl

theorem PairInv.link (h : s.PairInv) (hclient : client < s.next) (hpeer : (s.socks client).peer = none) :
    (s.link client server).PairInv := by
  have hne : s.next ≠ client := Nat.ne_of_gt hclient
  -- No socket has one of the two ends as its peer yet.
  have hfree : ∀ {a b}, (s.socks a).peer = some b → a ≠ client ∧ a ≠ s.next ∧ b ≠ client ∧ b ≠ s.next := by
    intro a b hab
    have hba := (h.paired a).2 b hab
    have hnext := h.peer_eq_none (Nat.le_refl s.next)
    refine ⟨?_, ?_, ?_, ?_⟩ <;> rintro rfl
    · rw [hpeer] at hab
      cases hab
    · rw [hnext] at hab
      cases hab
    · rw [hpeer] at hba
      cases hba
    · rw [hnext] at hba
      cases hba
  refine ⟨fun a => ⟨?_, fun b hb => ?_⟩, fun {a b} hb => ?_, fun ha => Nat.lt_succ_of_lt (h.handle_lt ha),
    fun hx => ?_⟩
  · rw [link_state, link_peer]
    by_cases hc : a = client
    · simp [hc]
    · by_cases hn : a = s.next
      · simp [hn, hne]
      · simpa [hc, hn] using (h.paired a).1
  · rw [link_peer] at hb ⊢
    split_ifs at hb with hc hn
    · cases hb
      rw [if_neg hne, if_pos rfl, hc]
    · cases hb
      rw [if_pos rfl, hn]
    · obtain ⟨-, -, hbc, hbn⟩ := hfree hb
      rw [if_neg hbc, if_neg hbn]
      exact (h.paired a).2 b hb
  · change b < s.next + 1
    rw [link_peer] at hb
    split_ifs at hb
    · cases hb
      exact Nat.lt_succ_self _
    · cases hb
      exact Nat.lt_succ_of_lt hclient
    · exact Nat.lt_succ_of_lt (h.peer_lt hb)
  · rw [link_backlog] at hx
    rcases mem_append.mp hx with hx | hx
    · split at hx
      · cases hx
      · exact Nat.lt_succ_of_lt (h.backlog_lt hx)
    · split at hx
      · exact mem_singleton.mp hx ▸ Nat.lt_succ_self _
      · cases hx

/-! ## Runs -/

theorem PairInv.change (h : s.PairInv) (hok : s.PairsUp sec)
    (hchange : s.Change sec s') : s'.PairInv := by
  cases hchange with
  | same => exact ⟨h.paired, h.peer_lt, h.handle_lt, h.backlog_lt⟩
  | create ty => exact h.create ty
  | bind hmem hstate => exact (hok hmem hstate).elim
  | listen hmem hstate =>
    have hnot := hok hmem
    exact h.modify _ rfl ⟨nofun, fun hconnected => (hnot hconnected).elim⟩ fun _ => id
  | hold => exact h.modify _ rfl Iff.rfl fun _ => id
  | link hclient hserver hstate hne =>
    exact h.link (h.handle_lt hclient) (hok hclient hserver hstate hne)
  | @accept server a hlast =>
    have hkeep := h.modify server (f := fun v => { v with backlog := v.backlog.dropLast }) rfl Iff.rfl
      fun _ => mem_of_mem_dropLast
    refine ⟨hkeep.paired, hkeep.peer_lt, fun ha => ?_, hkeep.backlog_lt⟩
    rcases mem_append.mp ha with ha | ha
    · exact h.handle_lt ha
    · rw [mem_singleton.mp ha]
      exact h.backlog_lt (mem_of_getLast? hlast)
  | read => exact h.modify _ rfl Iff.rfl fun _ => id
  | deliver => exact h.modify _ rfl Iff.rfl fun _ => id

theorem PairInv.step (h : cfg.shared.PairInv) (hok : RunsPairUp cfg ev)
    (hstep : cfg.step exec ev = some cfg') :
    cfg'.shared.PairInv := by
  obtain ⟨t, sec, rest, s', next, rfl, htodo, hexec, rfl⟩ | ⟨_, _, _, rfl⟩ := Config.step_cases hstep
  · obtain ⟨p, -, hrun⟩ := Option.bind_eq_some_iff.mp hexec
    have hsec : cfg.shared.PairsUp sec := hok sec (by rw [htodo]; rfl)
    have hp : PairInv { cfg.shared with parking := p } := ⟨h.paired, h.peer_lt, h.handle_lt, h.backlog_lt⟩
    have hpsec : PairsUp { cfg.shared with parking := p } sec := by cases sec <;> exact hsec
    exact hp.change hpsec (.of_step hrun)
  · exact h

/-- In every run without such calls the sockets are paired. -/
theorem paired_of_runsPairUp (cfg : Config SockState SockSection)
    (h : Reach exec (fun cfg ev => Calls cfg ev ∧ RunsPairUp cfg ev) ⟨.init, fun _ => []⟩ cfg) :
    cfg.shared.Paired := by
  have hinv : cfg.shared.PairInv :=
    h.invariant (P := fun cfg => cfg.shared.PairInv) .init fun hinv hok hstep => hinv.step hok.2 hstep
  exact hinv.paired

/-- A server, and a client that connects to it: the two ends are paired. -/
theorem paired_of_runsPairUp_connect : ∃ cfg : Config SockState SockSection,
    (cfg.shared.socks 1).peer = some 2 ∧ cfg.shared.Paired := by
  obtain ⟨cfg, hreach, hpeer⟩ := Reach.exists_runAll exec
    (fun cfg ev => Calls cfg ev ∧ RunsPairUp cfg ev) ⟨.init, fun _ => []⟩
    (P := fun cfg => (cfg.shared.socks 1).peer = some 2)
    [.call 0 [.create .Stream], .run 0, .call 0 [.create .Stream], .run 0, .call 0 [.listen 0], .run 0,
      .call 1 [.connect 1 0], .run 1] (by decide +kernel)
  exact ⟨cfg, hpeer, paired_of_runsPairUp cfg hreach⟩

/-- A socket that is created and bound is `Connected`, and has no peer. -/
theorem bind_connects_without_peer : ∃ cfg,
    Reach exec Calls ⟨.init, fun _ => []⟩ cfg ∧
      (cfg.shared.socks 0).state = .Connected ∧ (cfg.shared.socks 0).peer = none ∧
      ¬ cfg.shared.Paired := by
  obtain ⟨cfg, hreach, hstate, hpeer⟩ := Reach.exists_runAll exec Calls ⟨.init, fun _ => []⟩
    (P := fun cfg => (cfg.shared.socks 0).state = .Connected ∧ (cfg.shared.socks 0).peer = none)
    [.call 0 [.create .Stream], .run 0, .call 0 [.bind 0], .run 0] (by decide +kernel)
  exact ⟨cfg, hreach, hstate, hpeer, fun h => (h 0).1.mp hstate hpeer⟩

/-! ## The order of accepted connections -/

/-- The end of a connection to `v` that a section makes. -/
def made (v : Nat) (s s' : SockState) : SockSection → List Nat
  | .connect _ server => if server = v ∧ s'.next ≠ s.next then [s.next] else []
  | _ => []

/-- The end that a section accepts from `v`. -/
def taken (v : Nat) (s s' : SockState) : SockSection → List Nat
  | .accept server => if server = v then s'.handles.drop s.handles.length else []
  | _ => []

/-- The sockets, with the ends that were made and those that were accepted, in order. -/
structure Recorded where
  sockets : SockState
  made : List Nat
  taken : List Nat

/-- The sections, with that record for `v`. -/
def recorded (v : Nat) : Exec Recorded SockSection := fun t sec r =>
  (exec t sec r.sockets).map fun (s', next) =>
    (⟨s', r.made ++ made v r.sockets s' sec, r.taken ++ taken v r.sockets s' sec⟩, next)

def RecordedCalls (cfg : Config Recorded SockSection) (ev : Event SockSection) : Prop :=
  Calls ⟨cfg.shared.sockets, cfg.todo⟩ ev

instance (cfg : Config Recorded SockSection) (ev : Event SockSection) : Decidable (RecordedCalls cfg ev) :=
  inferInstanceAs (Decidable (Calls _ ev))

/-- The connections to `v` are accepted in order, and none twice. -/
def Recorded.InOrder (r : Recorded) : Prop := r.taken <+: r.made ∧ r.taken.Nodup

/-- Where a connection to `v` is accepted, no two are waiting. -/
def OneWaits (v : Nat) (cfg : Config Recorded SockSection) : Event SockSection → Prop
  | .run t => (cfg.todo t).head? = some (.accept v) → (cfg.shared.sockets.socks v).backlog.length ≤ 1
  | .call .. => True

instance (v : Nat) (cfg : Config Recorded SockSection) : ∀ ev, Decidable (OneWaits v cfg ev)
  | .run _ | .call .. => by unfold OneWaits; infer_instance

/-- What was made was accepted or waits, in this order. -/
structure AcceptInv (v : Nat) (r : Recorded) : Prop where
  server : v < r.sockets.next
  order : r.made = r.taken ++ (r.sockets.socks v).backlog
  nodup : r.made.Nodup
  made_lt : ∀ a ∈ r.made, a < r.sockets.next

variable {v : Nat} {sec : SockSection}

/-- Sections that neither make nor accept a connection to `v`. -/
theorem AcceptInv.keep (h : AcceptInv v ⟨s, conns, accs⟩) (hnext : s.next ≤ s'.next)
    (hbacklog : (s'.socks v).backlog = (s.socks v).backlog) (hmade : made v s s' sec = [])
    (htaken : taken v s s' sec = []) :
    AcceptInv v ⟨s', conns ++ made v s s' sec, accs ++ taken v s s' sec⟩ := by
  rw [hmade, htaken, append_nil, append_nil]
  exact ⟨h.server.trans_le hnext, h.order.trans (by rw [hbacklog]), h.nodup,
    fun a ha => (h.made_lt a ha).trans_le hnext⟩

theorem AcceptInv.change (h : AcceptInv v ⟨s, conns, accs⟩) (hchange : s.Change sec s')
    (hone : sec = .accept v → (s.socks v).backlog.length ≤ 1) :
    AcceptInv v ⟨s', conns ++ made v s s' sec, accs ++ taken v s s' sec⟩ := by
  have hne : v ≠ s.next := Nat.ne_of_lt h.server
  have horder : conns = accs ++ (s.socks v).backlog := h.order
  cases hchange with
  | same sec p =>
    refine h.keep (Nat.le_refl _) rfl ?_ ?_
    · cases sec <;> simp [made]
    · cases sec <;> simp [taken]
  | create ty => exact h.keep (Nat.le_succ _) (by rw [socks_create_ne hne]) rfl rfl
  | bind | listen | read | deliver =>
    exact h.keep (Nat.le_refl _) (apply_modify SockInner.backlog rfl) rfl rfl
  | hold =>
    exact h.keep (Nat.le_refl _) (apply_modify SockInner.backlog rfl) (by simp [made, modify]) rfl
  | @link client server =>
    have hnext : (s.link client server).next = s.next + 1 := rfl
    by_cases hs : server = v
    · subst hs
      have hmade : made server s (s.link client server) (.connect client server) = [s.next] := by
        simp [made, hnext]
      rw [hmade]
      refine ⟨Nat.lt_succ_of_lt h.server, ?_, ?_, fun a ha => ?_⟩
      · simp [link_backlog, taken, horder, hne]
      · refine nodup_append.mpr ⟨h.nodup, nodup_singleton _, fun a ha b hb => ?_⟩
        rw [mem_singleton.mp hb]
        exact Nat.ne_of_lt (h.made_lt a ha)
      · rcases mem_append.mp ha with ha | ha
        · exact Nat.lt_succ_of_lt (h.made_lt a ha)
        · rw [mem_singleton.mp ha]
          exact Nat.lt_succ_self s.next
    · exact h.keep (Nat.le_succ _) (by simp [link_backlog, hs, hne]) (by simp [made, hs]) rfl
  | @accept server a hlast =>
    by_cases hs : server = v
    · -- The only end that waits is the first of those not accepted.
      subst hs
      obtain ⟨init, hback⟩ := getLast?_eq_some_iff.mp hlast
      have hlen := hone rfl
      rw [hback, length_append, length_singleton] at hlen
      obtain rfl : init = [] := eq_nil_of_length_eq_zero (by omega)
      have hmade : ∀ s', conns ++ made server s s' (.accept server) = conns := fun _ => append_nil _
      rw [hmade]
      exact ⟨h.server, by simp [taken, modify, horder, hback], h.nodup, h.made_lt⟩
    · exact h.keep (Nat.le_refl _) (by rw [socks_modify_ne (Ne.symm hs)]) rfl (if_neg hs)

/-- From a state where no connection to `v` is waiting, connections are accepted in the order they
were made, as long as no two are waiting where one is accepted. -/
theorem inOrder_of_oneWaits {init cfg : Config Recorded SockSection} (hv : v < init.shared.sockets.next)
    (hnone : (init.shared.sockets.socks v).backlog = []) (hmade : init.shared.made = [])
    (htaken : init.shared.taken = [])
    (h : Reach (recorded v) (fun cfg ev => RecordedCalls cfg ev ∧ OneWaits v cfg ev) init cfg) :
    cfg.shared.InOrder := by
  have hinv : AcceptInv v cfg.shared := by
    refine h.invariant (P := fun cfg => AcceptInv v cfg.shared) ?_ fun {cfg _ _} hinv hok hstep => ?_
    · exact ⟨hv, by rw [hmade, htaken, hnone]; rfl, by rw [hmade]; exact .nil, by simp [hmade]⟩
    obtain ⟨t, sec, rest, r, next, rfl, htodo, hexec, rfl⟩ | ⟨_, _, _, rfl⟩ := Config.step_cases hstep
    · obtain ⟨⟨s', next⟩, hrun, ⟨⟩⟩ := Option.map_eq_some_iff.mp hexec
      obtain ⟨p, -, hrun⟩ := Option.bind_eq_some_iff.mp hrun
      have hone := hok.2
      rw [OneWaits, htodo] at hone
      have hp : AcceptInv v ⟨{ cfg.shared.sockets with parking := p }, _, _⟩ :=
        ⟨hinv.server, hinv.order, hinv.nodup, hinv.made_lt⟩
      exact hp.change (.of_step hrun) fun hsec => hone (by rw [hsec]; rfl)
    · exact hinv
  have hpre : cfg.shared.taken <+: cfg.shared.made := ⟨_, hinv.order.symm⟩
  exact ⟨hpre, hpre.sublist.nodup hinv.nodup⟩

/-- A server that listens, and two clients. -/
def twoClients : Config Recorded SockSection :=
  ⟨⟨(((init.create .Stream).modify 0 ({ · with state := .Listening })).create .Stream).create .Stream,
    [], []⟩, fun _ => []⟩

theorem inOrder_twoClients : ∃ cfg : Config Recorded SockSection,
    cfg.shared.taken = [3, 4] ∧ cfg.shared.InOrder := by
  obtain ⟨cfg, hreach, htaken⟩ := Reach.exists_runAll (recorded 0)
    (fun cfg ev => RecordedCalls cfg ev ∧ OneWaits 0 cfg ev) twoClients
    (P := fun cfg => cfg.shared.taken = [3, 4])
    [.call 0 [.connect 1 0], .run 0, .call 1 [.accept 0], .run 1, .run 0, .call 0 [.connect 2 0], .run 0,
      .call 1 [.accept 0], .run 1] (by decide +kernel)
  exact ⟨cfg, htaken, inOrder_of_oneWaits (by decide) rfl rfl rfl hreach⟩

/-- Two connections are made, then one is accepted: the second. -/
theorem accept_takes_second : ∃ cfg, Reach (recorded 0) RecordedCalls twoClients cfg ∧
    cfg.shared.made = [3, 4] ∧ cfg.shared.taken = [4] ∧ ¬ cfg.shared.InOrder := by
  obtain ⟨cfg, hreach, hmade, htaken⟩ := Reach.exists_runAll (recorded 0) RecordedCalls twoClients
    (P := fun cfg => cfg.shared.made = [3, 4] ∧ cfg.shared.taken = [4])
    [.call 0 [.connect 1 0], .run 0, .run 0, .call 0 [.connect 2 0], .run 0, .call 1 [.accept 0], .run 1]
    (by decide +kernel)
  refine ⟨cfg, hreach, hmade, htaken, fun h => ?_⟩
  have hpre := h.1
  rw [hmade, htaken] at hpre
  exact absurd hpre (by decide)

end SockState

end BoruixKernel
