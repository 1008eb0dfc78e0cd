import BoruixKernel.User.Getnet

/-!
# The two streams of getnet

What the client sends and what it writes, over whole runs.

The bytes of the peer come out in order and once each: the number to acknowledge is the one of
the byte after those written.  The request goes out under the right numbers once.  A request
sent again has the number of the byte after it.
-/

namespace BoruixKernel.Getnet

/-! ## Reading a frame back -/

/-- The sequence number in a frame that the client has built. -/
def seqOf (frame : List UInt8) : UInt32 := UInt32.ofNat (field frame 38 4)

/-- Its payload. -/
def payloadOf (frame : List UInt8) : List UInt8 := frame.drop 54

variable (c : Conn)

@[simp] theorem length_ipv4Fields (totalLen : Nat) (proto : UInt8) (src dst : Vector UInt8 4) (ident : Nat)
    (csum : UInt16) : (ipv4Fields totalLen proto src.toList dst.toList ident csum).length = 20 := by
  simp [ipv4Fields]

@[simp] theorem length_buildIpv4Header (totalLen : Nat) (proto : UInt8) (src dst : Vector UInt8 4)
    (ident : Nat) : (buildIpv4Header totalLen proto src.toList dst.toList ident).length = 20 :=
  length_ipv4Fields ..

open List

section

variable (seq ack : UInt32) (flags : UInt8) (payload : List UInt8)

include seq ack flags payload

/-- A frame, split before and after the sequence number. -/
theorem tcpFrame_eq : ∃ before after : List UInt8, before.length = 38 ∧ after.length = 12 ∧
      tcpFrame c seq ack flags payload = before ++ (Bytes.ofNatBe 4 seq.toNat ++ (after ++ payload)) := by
  simp only [tcpFrame, tcpFields]
  generalize tcpChecksum _ _ _ = csum
  refine ⟨c.dstMac.toList ++ c.mac.toList ++ Bytes.ofNatBe 2 EthTypeIp ++
      buildIpv4Header (40 + payload.length) IpProtoTcp c.ip.toList c.dstIp.toList (seq.toNat % 2 ^ 16) ++
      Bytes.ofNatBe 2 c.srcPort.toNat ++ Bytes.ofNatBe 2 c.port.toNat,
    Bytes.ofNatBe 4 ack.toNat ++ [(5 : UInt8) <<< 4, flags ||| (if ack ≠ 0 then TcpAck else 0)] ++
      Bytes.ofNatBe 2 0x4000 ++ Bytes.ofNatBe 2 csum.toNat ++ Bytes.ofNatBe 2 0, ?_, ?_, ?_⟩
  · simp
  · simp
  · simp

@[simp] theorem seqOf_tcpFrame : seqOf (tcpFrame c seq ack flags payload) = seq := by
  obtain ⟨before, after, hbefore, -, heq⟩ := tcpFrame_eq c seq ack flags payload
  have hfield : field (tcpFrame c seq ack flags payload) 38 4 = seq.toNat := by
    rw [field, Bytes.slice, heq, drop_left' hbefore, take_left' (Bytes.length_ofNatBe 4 _),
      Bytes.toNatBe_ofNatBe]
    exact Nat.mod_eq_of_lt seq.toNat_lt
  rw [seqOf, hfield, UInt32.ofNat_toNat]

@[simp] theorem payloadOf_tcpFrame : payloadOf (tcpFrame c seq ack flags payload) = payload := by
  obtain ⟨before, after, hbefore, hafter, heq⟩ := tcpFrame_eq c seq ack flags payload
  rw [payloadOf, heq, ← append_assoc, ← append_assoc]
  exact drop_left' (by simp [hbefore, hafter])

end

/-! ## The request -/

theorem length_copyStr_le (h : req.length ≤ 256) (src : List UInt8) :
    (copyStr req src).length ≤ 256 := by
  rw [copyStr, length_append, length_take]
  omega

theorem length_le_copyStr (req src : List UInt8) : req.length ≤ (copyStr req src).length := by
  rw [copyStr, length_append]
  omega

theorem Conn.length_request_le : c.request.length ≤ 256 := by
  simp only [Conn.request, foldl_cons, foldl_nil]
  exact length_copyStr_le (length_copyStr_le (length_copyStr_le (length_copyStr_le
    (length_copyStr_le (Nat.zero_le _) _) _) _) _) _

/-- The request starts with the method, whatever was cut off. -/
theorem Conn.length_request_pos : 0 < c.request.length := by
  simp only [Conn.request, foldl_cons, foldl_nil]
  have hfirst : 0 < (copyStr [] (ascii "GET ")).length := by decide
  exact Nat.lt_of_lt_of_le hfirst (Nat.le_trans (Nat.le_trans (length_le_copyStr _ _)
    (length_le_copyStr _ _)) (Nat.le_trans (length_le_copyStr _ _) (length_le_copyStr _ _)))

theorem sendTcpPayload_request (seq ack : UInt32) (flags : UInt8) :
    sendTcpPayload c seq ack flags c.request = [tcpFrame c seq ack flags c.request] :=
  if_neg (Nat.not_lt.mpr c.length_request_le)

theorem sendTcp_eq (seq ack : UInt32) (flags : UInt8) :
    sendTcp c seq ack flags = [tcpFrame c seq ack flags []] :=
  rfl

/-! ## The numbers of what is sent -/

/-- Every byte of the payload is the byte of the request at its place, and has its number. -/
def Numbered (frame : List UInt8) : Prop :=
  ∀ i b, (payloadOf frame)[i]? = some b →
    c.request[i]? = some b ∧ seqOf frame + UInt32.ofNat i = c.isn + 1 + UInt32.ofNat i

theorem numbered_bare (seq ack : UInt32) (flags : UInt8) : Numbered c (tcpFrame c seq ack flags []) := by
  intro i b hb
  rw [payloadOf_tcpFrame] at hb
  exact absurd hb (by simp)

theorem numbered_request (ack : UInt32) (flags : UInt8) :
    Numbered c (tcpFrame c (c.isn + 1) ack flags c.request) := by
  intro i b hb
  rw [payloadOf_tcpFrame] at hb
  exact ⟨hb, by rw [seqOf_tcpFrame]⟩

/-- The request under the number after its end. -/
theorem not_numbered_again (ack : UInt32) (flags : UInt8) :
    ¬ Numbered c (tcpFrame c (c.isn + 1 + UInt32.ofNat c.request.length) ack flags c.request) := by
  intro h
  have hpos := c.length_request_pos
  have hle := c.length_request_le
  have hnum := (h 0 _ (by rw [payloadOf_tcpFrame]; exact getElem?_eq_getElem hpos)).2
  rw [seqOf_tcpFrame, UInt32.add_left_inj] at hnum
  have hzero : UInt32.ofNat c.request.length = 0 := by
    rw [← UInt32.add_right_inj (c.isn + 1), hnum, UInt32.add_zero]
  have htoNat := congrArg UInt32.toNat hzero
  rw [UInt32.toNat_ofNat', Nat.mod_eq_of_lt (by omega), UInt32.toNat_zero] at htoNat
  omega

namespace Client

/-- In the receive loop the sequence number is the one after the request. -/
def LoopSeq (s : Client) : Prop :=
  ∀ l, s.phase = .loop l → l.seq = c.isn + 1 + UInt32.ofNat c.request.length

/-- A round that sends no payload but the request under its number, and leaves the number after
it in the loop. -/
structure Proper (s s' : Client) : Prop where
  sent : ∃ frames, s'.sent = s.sent ++ frames ∧ ∀ f ∈ frames, Numbered c f
  loopSeq : LoopSeq c s → LoopSeq c s'

namespace Proper

variable {c}

theorem trans (h1 : Proper c s1 s2) (h2 : Proper c s2 s3) : Proper c s1 s3 := by
  obtain ⟨⟨fs1, hsent1, hnum1⟩, hseq1⟩ := h1
  obtain ⟨⟨fs2, hsent2, hnum2⟩, hseq2⟩ := h2
  refine ⟨⟨fs1 ++ fs2, by rw [hsent2, hsent1, append_assoc], ?_⟩, fun h => hseq2 (hseq1 h)⟩
  intro f hf
  exact (mem_append.mp hf).elim (hnum1 f) (hnum2 f)

theorem quiet (hsent : s'.sent = s.sent) (hseq : LoopSeq c s → LoopSeq c s') : Proper c s s' :=
  ⟨⟨[], by rw [hsent, append_nil], by simp⟩, hseq⟩

theorem print (s : Client) (bytes : List UInt8) : Proper c s (s.print bytes) := quiet rfl id

theorem output (s : Client) (o : Output) : Proper c s (s.output o) := quiet rfl id

theorem closed (s : Client) : Proper c s { s with phase := .closed } :=
  quiet rfl fun _ _ hl => nomatch hl

/-- The loop goes on with the same number. -/
theorem loop (hs : s.phase = .loop l) (hseq : l'.seq = l.seq) :
    Proper c s { s with phase := .loop l' } := by
  refine quiet rfl fun h l'' hl'' => ?_
  cases hl''
  rw [hseq, h l hs]

theorem sendTcp (s : Client) (seq ack : UInt32) (flags : UInt8) :
    Proper c s (s.send (Getnet.sendTcp c seq ack flags)) := by
  refine ⟨⟨_, rfl, fun f hf => ?_⟩, id⟩
  rw [sendTcp_eq, mem_singleton] at hf
  rw [hf]
  exact numbered_bare c seq ack flags

theorem sendRequest (s : Client) (ack : UInt32) (flags : UInt8) :
    Proper c s (s.send (sendTcpPayload c (c.isn + 1) ack flags c.request)) := by
  refine ⟨⟨_, rfl, fun f hf => ?_⟩, id⟩
  rw [sendTcpPayload_request, mem_singleton] at hf
  rw [hf]
  exact numbered_request c ack flags

end Proper

/-! Each function, in the order of the source. -/

theorem sendSyn_proper (left : Nat) (since : Int) (sent : Bool) (s : Client) :
    Proper c s (sendSyn c left since sent s) := by
  rw [sendSyn]
  refine (Proper.sendTcp s c.isn 0 TcpSyn).trans ?_
  split
  · exact Proper.quiet rfl fun _ _ hl => nomatch hl
  · exact (Proper.print _ _).trans (Proper.closed _)

theorem establish_proper (peerSeq : UInt32) (start : Int) (sent : Bool) (s : Client) :
    Proper c s (establish c peerSeq start sent s) := by
  rw [establish]
  refine ((Proper.sendTcp s (c.isn + 1) (peerSeq + 1) TcpAck).trans
    (Proper.sendRequest _ (peerSeq + 1) (TcpPsh ||| TcpAck))).trans ?_
  split
  · refine Proper.quiet rfl fun _ l hl => ?_
    cases hl
    rfl
  · exact (Proper.print _ _).trans (Proper.closed _)

theorem synWait_proper (left : Nat) (since : Int) (p : Poll) (s : Client) :
    Proper c s (synWait c left since p s) := by
  simp only [synWait]
  split
  · split
    · exact (Proper.print _ _).trans (Proper.closed _)
    · exact sendSyn_proper c _ _ _ s
  · exact Proper.quiet rfl id

theorem synSegment_proper (left : Nat) (since : Int) (p : Poll)
    (segment : Option (Nat × Nat × UInt32 × UInt8)) (s : Client) :
    Proper c s (synSegment c left since p segment s) := by
  simp only [synSegment]
  split
  · exact synWait_proper c left since p s
  · split
    · exact (Proper.print _ _).trans (Proper.closed _)
    · split
      · exact establish_proper c _ _ _ s
      · exact synWait_proper c left since p s

theorem synRound_proper (left : Nat) (since : Int) (p : Poll) (s : Client) :
    Proper c s (synRound c left since p s) := by
  rw [synRound]
  split
  · exact synWait_proper c left since p s
  · exact (Proper.print s _).trans (synSegment_proper c left since p _ _)

variable {p : Poll} {s s' : Client} {l l' : Loop}

section

variable (hs : s.phase = .loop l)

include hs

/-- A round without a frame that does not send the request again. -/
theorem idleRound_proper (hp : resends l p = false) : Proper c s (idleRound c l p s) := by
  rw [idleRound, hp]
  split
  · exact Proper.closed s
  · exact Proper.loop hs rfl

theorem finish_proper (hseq : l'.seq = l.seq) (flags : UInt8) : Proper c s (finish c l' flags s) := by
  rw [finish]
  split
  · exact (Proper.sendTcp s _ _ _).trans (Proper.closed _)
  · exact Proper.loop hs hseq

theorem accept_proper (hseq : l'.seq = l.seq) (off len : Nat) (flags : UInt8) :
    Proper c s (accept c l' off len flags s) := by
  rw [accept]
  split
  · split
    · exact Proper.quiet rfl fun _ _ hl => nomatch hl
    · refine ((Proper.output s (.payload (Bytes.slice off len l'.buf))).trans
        (Proper.sendTcp _ l'.seq (l'.ack + UInt32.ofNat len) TcpAck)).trans ?_
      refine finish_proper c (l := l) ?_ ?_ flags
      · exact hs
      · exact hseq
  · exact finish_proper c hs hseq flags

theorem segment_proper (hseq : l'.seq = l.seq) (seg : Option (Nat × Nat × UInt32 × UInt8)) :
    Proper c s (segment c l' seg s) := by
  simp only [segment]
  split
  · exact Proper.loop hs hseq
  · split
    · exact Proper.closed s
    · split
      · exact (Proper.sendTcp s l'.seq l'.ack TcpAck).trans (Proper.loop (l := l) hs hseq)
      · exact accept_proper c hs hseq _ _ _

theorem loopRound_proper (hp : resends l p = false) : Proper c s (loopRound c l p s) := by
  rw [loopRound]
  split
  · exact idleRound_proper c hs hp
  · refine (Proper.output s _).trans (segment_proper c (l := l) ?_ ?_ _)
    · exact hs
    · rfl

end

/-- The client is in its receive loop and sends the request again in this round. -/
def Resends (s : Client) (p : Poll) : Prop := ∃ l, s.phase = .loop l ∧ resends l p = true

theorem step_proper (h : ¬ Resends s p) : Proper c s (step c s p) := by
  rw [step]
  split
  · exact synRound_proper c _ _ p s
  · next l hl => exact loopRound_proper c hl (Bool.eq_false_iff.mpr fun hp => h ⟨l, hl, hp⟩)
  · exact Proper.quiet rfl id
  · exact Proper.quiet rfl id

theorem step_of_resends (hl : s.phase = .loop l) (hp : resends l p = true) : step c s p =
      { s.send [tcpFrame c l.seq l.ack (TcpPsh ||| TcpAck) c.request] with
        phase := .loop { l with resendLeft := l.resendLeft - 1, lastActivity := p.now } } := by
  have hround : step c s p = loopRound c l p s := by rw [step, hl]
  obtain ⟨hframe, htime, -⟩ := of_decide_eq_true hp
  rw [hround, loopRound, if_pos hframe, idleRound, if_neg htime, if_pos hp, sendTcpPayload_request]

/-- What is sent stays on record. -/
theorem step_sent (s : Client) (p : Poll) : s.sent <+: (step c s p).sent := by
  by_cases hp : Resends s p
  · obtain ⟨l, hl, hp⟩ := hp
    rw [step_of_resends c hl hp]
    exact prefix_append _ _
  · obtain ⟨frames, hsent, -⟩ := (step_proper c hp).sent
    rw [hsent]
    exact prefix_append _ _

theorem run_sent (s : Client) (polls : List Poll) : s.sent <+: (run c s polls).sent := by
  induction polls generalizing s with
  | nil => exact prefix_refl _
  | cons p polls ih => exact (step_sent c s p).trans (ih (step c s p))

/-- No round of a run sends the request again. -/
def NeverResends : Client → List Poll → Prop
  | _, [] => True
  | s, p :: polls => ¬ Resends s p ∧ NeverResends (step c s p) polls

/-- A run, from any state of the client. -/
theorem run_numbered (hseq : LoopSeq c s) (hsent : ∀ f ∈ s.sent, Numbered c f) (polls : List Poll) :
    (∀ f ∈ (run c s polls).sent, Numbered c f) ↔ NeverResends c s polls := by
  induction polls generalizing s with
  | nil => exact ⟨fun _ => trivial, fun _ => hsent⟩
  | cons p polls ih =>
    show (∀ f ∈ (run c (step c s p) polls).sent, Numbered c f) ↔ _
    by_cases h : Resends s p
    · refine ⟨fun hall => ?_, fun hquiet => absurd h hquiet.1⟩
      -- The frame with the wrong number stays on record, whatever comes after.
      obtain ⟨l, hl, hp⟩ := h
      have hmem : tcpFrame c l.seq l.ack (TcpPsh ||| TcpAck) c.request ∈ (step c s p).sent := by
        rw [step_of_resends c hl hp]
        exact mem_append_right _ (mem_singleton_self _)
      have hnum := hall _ ((run_sent c _ polls).subset hmem)
      rw [hseq l hl] at hnum
      exact absurd hnum (not_numbered_again c _ _)
    · obtain ⟨⟨frames, hframes, hnum⟩, hseq'⟩ := step_proper c h
      rw [NeverResends, and_iff_right h]
      refine ih (hseq' hseq) fun f hf => ?_
      rw [hframes] at hf
      exact (mem_append.mp hf).elim (hsent f) (hnum f)

/-- In a run of the client every byte of the request has its number in every frame if and only
if no round sends the request again. -/
theorem run_numbered_iff (since : Int) (sent : Bool) (polls : List Poll) :
    (∀ f ∈ (run c (start c since sent) polls).sent, Numbered c f) ↔
      NeverResends c (start c since sent) polls := by
  have hstart : Proper c ⟨.closed, [], [], []⟩ (start c since sent) := sendSyn_proper c 2 since sent _
  obtain ⟨⟨frames, hframes, hnum⟩, hseq⟩ := hstart
  refine run_numbered c (hseq fun _ hl => nomatch hl) (fun f hf => ?_) polls
  rw [hframes, nil_append] at hf
  exact hnum f hf

end Client

/-! ## An idle peer -/

/-- A connection, and the same from the side of the peer. -/
def exampleConn : Conn where
  ip := #v[10, 0, 2, 15]
  mac := #v[2, 0, 0, 0, 0, 1]
  dstMac := #v[2, 0, 0, 0, 0, 2]
  dstIp := #v[10, 0, 2, 2]
  srcPort := 40002
  port := 80
  isn := 1000
  path := ascii "/"
  host := ascii "10.0.2.2"
  debug := false

def Conn.peer (c : Conn) : Conn :=
  { c with ip := c.dstIp, mac := c.dstMac, dstMac := c.mac, dstIp := c.ip, srcPort := c.port, port := c.srcPort }

/-- The SYN is answered at once, and then nothing comes for two seconds. -/
def silentPeer : List Poll :=
  [⟨tcpFrame exampleConn.peer 5000 1001 (TcpSyn ||| TcpAck) [], 0, 0, true⟩, ⟨[], 2, 2, true⟩]

/-- The first byte of the request goes out under the number 1001 and then under 1035. -/
theorem Client.silentPeer_renumbers :
    ∃ f ∈ (Client.run exampleConn (Client.start exampleConn 0 true) silentPeer).sent,
      payloadOf f = exampleConn.request ∧ seqOf f = 1035 ∧ ¬ Numbered exampleConn f := by
  have hsent : ∃ f ∈ (Client.run exampleConn (Client.start exampleConn 0 true) silentPeer).sent,
      payloadOf f = exampleConn.request ∧ seqOf f = 1035 := by decide +kernel
  obtain ⟨f, hf, hpayload, hseq⟩ := hsent
  refine ⟨f, hf, hpayload, hseq, fun hnum => ?_⟩
  have hfirst : seqOf f + UInt32.ofNat 0 = exampleConn.isn + 1 + UInt32.ofNat 0 :=
    (hnum 0 0x47 (by rw [hpayload]; decide +kernel)).2
  rw [hseq] at hfirst
  exact absurd hfirst (by decide)

/-! ## What is written -/

/-- A frame that `parse_tcp` accepts has in it the bytes of the peer's stream that belong to its
sequence number.  The stream begins after the SYN, whose number is `peerIsn`. -/
def Carries (peerIsn : UInt32) (stream frame : List UInt8) : Prop :=
  ∀ off len seq flags, parseTcp c frame = some (off, len, seq, flags) → 0 < len →
    off + len ≤ frame.length ∧
      ∃ pos, pos + len ≤ stream.length ∧ seq = peerIsn + 1 + UInt32.ofNat pos ∧
        Bytes.slice off len frame = Bytes.slice pos len stream

/-- The payload among what is written. -/
def Output.payloadBytes : Output → List UInt8
  | .brief _ => []
  | .payload bytes => bytes

namespace Client

/-- All that the receive loop has written. -/
def bytes (s : Client) : List UInt8 := s.written.flatMap Output.bytes

/-- What it has written of the peer's stream. -/
def payloads (s : Client) : List UInt8 := s.written.flatMap Output.payloadBytes

section Delivery

variable (peerIsn : UInt32) (stream : List UInt8) {pos : Nat} {s : Client} {l : Loop}

/-- The payloads are the stream up to a position; without `-d` nothing else is written. -/
structure Delivered (pos : Nat) (s : Client) : Prop where
  pos_le : pos ≤ stream.length
  payloads_eq : s.payloads = stream.take pos
  bytes_eq : c.debug = false → s.bytes = s.payloads

/-- The loop waits for the byte at a position. -/
structure Waits (pos : Nat) (l : Loop) : Prop where
  ack_eq : l.ack = peerIsn + 1 + UInt32.ofNat pos
  length_buf : l.buf.length = 1514

/-- The handshake is over, and the loop, if it goes on, waits for the byte at a position. -/
def WaitsAt (pos : Nat) : Phase → Prop
  | .syn _ _ => False
  | .loop l => Waits peerIsn pos l
  | .closed | .panicked => True

/-- What holds between the rounds. -/
def InOrder (s : Client) : Prop := ∃ pos, Delivered c stream pos s ∧ WaitsAt peerIsn pos s.phase

variable {c peerIsn stream}

theorem Delivered.of_written (h : Delivered c stream pos s) (hw : s'.written = s.written) :
    Delivered c stream pos s' := by
  refine ⟨h.pos_le, ?_, ?_⟩
  · rw [payloads, hw]
    exact h.payloads_eq
  · rw [bytes, payloads, hw]
    exact h.bytes_eq

theorem Delivered.brief (h : Delivered c stream pos s) (frame : List UInt8) :
    Delivered c stream pos (s.output (.brief (debugLine c frame))) := by
  have hpayloads : (s.output (.brief (debugLine c frame))).payloads = s.payloads := by
    simp [payloads, output, Output.payloadBytes]
  refine ⟨h.pos_le, hpayloads.trans h.payloads_eq, fun hdebug => ?_⟩
  have hline : debugLine c frame = [] := by simp [debugLine, hdebug]
  rw [hpayloads, ← h.bytes_eq hdebug]
  simp [bytes, output, Output.bytes, hline]

/-- The next bytes of the stream are written. -/
theorem Delivered.payload (h : Delivered c stream pos s) (hlen : pos + len ≤ stream.length) :
    Delivered c stream (pos + len) (s.output (.payload (Bytes.slice pos len stream))) := by
  refine ⟨hlen, ?_, fun hdebug => ?_⟩
  · rw [take_add, ← h.payloads_eq]
    simp [payloads, output, Output.payloadBytes, Bytes.slice]
  · have hbytes := h.bytes_eq hdebug
    rw [bytes, payloads] at hbytes ⊢
    simp [output, Output.payloadBytes, Output.bytes, hbytes]

theorem Delivered.inOrder (h : Delivered c stream pos s) (hw : s'.written = s.written)
    (hphase : WaitsAt peerIsn pos s'.phase) : InOrder c peerIsn stream s' :=
  ⟨pos, h.of_written hw, hphase⟩

variable (c)

theorem finish_inOrder (h : Delivered c stream pos s) (hl : Waits peerIsn pos l) (flags : UInt8) :
    InOrder c peerIsn stream (finish c l flags s) := by
  rw [finish]
  split
  · exact h.inOrder rfl trivial
  · exact h.inOrder rfl hl

theorem idleRound_inOrder (h : Delivered c stream pos s) (hl : Waits peerIsn pos l) (p : Poll) :
    InOrder c peerIsn stream (idleRound c l p s) := by
  rw [idleRound]
  split
  · exact h.inOrder rfl trivial
  · split
    · exact h.inOrder rfl ⟨hl.ack_eq, hl.length_buf⟩
    · exact h.inOrder rfl hl

/-- Positions below 2³² are the same if their numbers are. -/
theorem pos_eq_of_seq_eq {pos pos' : Nat} (hpos : pos < 2 ^ 32) (hpos' : pos' < 2 ^ 32)
    (h : base + UInt32.ofNat pos = base + UInt32.ofNat pos') : pos = pos' := by
  have := congrArg UInt32.toNat (UInt32.add_right_inj _ |>.mp h)
  rwa [UInt32.toNat_ofNat', UInt32.toNat_ofNat', Nat.mod_eq_of_lt hpos, Nat.mod_eq_of_lt hpos'] at this

/-- The frame in the buffer is the frame received, as far as it goes. -/
theorem slice_receive (hin : off + len ≤ frame.length) :
    Bytes.slice off len (l.receive frame now).buf = Bytes.slice off len frame := by
  rw [Loop.receive, Bytes.store, take_zero, nil_append, Bytes.slice, Bytes.slice,
    drop_append_of_le_length (by omega), take_append_of_le_length (by rw [length_drop]; omega)]

section

variable (hstream : stream.length < 2 ^ 32)

include hstream

/-- A segment with the number that the loop waits for has the next bytes of the stream. -/
theorem accept_inOrder (h : Delivered c stream pos s) (hl : Waits peerIsn pos l)
    (hpayload : 0 < len → off + len ≤ 1514 ∧ ∃ pos, pos + len ≤ stream.length ∧
      l.ack = peerIsn + 1 + UInt32.ofNat pos ∧ Bytes.slice off len l.buf = Bytes.slice pos len stream)
    (flags : UInt8) : InOrder c peerIsn stream (accept c l off len flags s) := by
  rw [accept]
  split
  · next hpos =>
    obtain ⟨hin, at', hat, hnum, hbytes⟩ := hpayload hpos
    have hat' : at' = pos := by
      have := h.pos_le
      exact pos_eq_of_seq_eq (by omega) (by omega) (hnum.symm.trans hl.ack_eq)
    subst hat'
    rw [if_neg (by omega), hbytes]
    have hwaits : Waits peerIsn (at' + len) { l with ack := l.ack + UInt32.ofNat len } := by
      refine ⟨?_, hl.length_buf⟩
      rw [hl.ack_eq, UInt32.ofNat_add, UInt32.add_assoc]
    refine finish_inOrder c ?_ hwaits flags
    exact (h.payload hat).of_written rfl
  · exact finish_inOrder c h hl flags

theorem segment_inOrder (hframe : Carries c peerIsn stream frame) (hlen : frame.length ≤ 1514)
    (h : Delivered c stream pos s) (hl : Waits peerIsn pos l) :
    InOrder c peerIsn stream (segment c (l.receive frame now) (parseTcp c frame) s) := by
  have hl' : Waits peerIsn pos (l.receive frame now) := by
    refine ⟨hl.ack_eq, ?_⟩
    rw [Loop.receive, Bytes.length_store (by rw [hl.length_buf]; omega), hl.length_buf]
  simp only [segment]
  split
  · exact h.inOrder rfl hl'
  · next off len seq flags hparse =>
    split
    · exact h.inOrder rfl trivial
    · split
      · exact h.inOrder rfl hl'
      · next hseq =>
        refine accept_inOrder c hstream h hl' (fun hpos => ?_) flags
        obtain ⟨hin, pos', hpos', hnum, hbytes⟩ := hframe off len seq flags hparse hpos
        rw [Decidable.not_not.mp hseq] at hnum
        exact ⟨by omega, pos', hpos', hnum, (slice_receive hin).trans hbytes⟩

theorem step_inOrder (hframe : Carries c peerIsn stream (p.frame.take 1514))
    (h : InOrder c peerIsn stream s) : InOrder c peerIsn stream (step c s p) := by
  obtain ⟨pos, hpos, hphase⟩ := h
  rw [step]
  split
  · next hs =>
    rw [hs] at hphase
    exact hphase.elim
  · next l hs =>
    rw [hs] at hphase
    rw [loopRound]
    split
    · exact idleRound_inOrder c hpos hphase p
    · exact segment_inOrder c hstream hframe (length_take_le _ _) (hpos.brief _) hphase
  · exact ⟨pos, hpos, hphase⟩
  · exact ⟨pos, hpos, hphase⟩

theorem run_inOrder (hframes : ∀ p ∈ polls, Carries c peerIsn stream (p.frame.take 1514))
    (h : InOrder c peerIsn stream s) : InOrder c peerIsn stream (run c s polls) := by
  induction polls generalizing s with
  | nil => exact h
  | cons p polls ih =>
    have hstep := step_inOrder c hstream (hframes p mem_cons_self) h
    exact ih (fun q hq => hframes q (mem_cons_of_mem _ hq)) hstep

end

theorem establish_inOrder (hs : s.written = []) (start : Int) (sent : Bool) :
    InOrder c peerIsn stream (establish c peerIsn start sent s) := by
  have hnone : Delivered c stream 0 s := by
    refine ⟨Nat.zero_le _, ?_, fun _ => ?_⟩
    · rw [payloads, hs, take_zero, flatMap_nil]
    · rw [bytes, payloads, hs, flatMap_nil, flatMap_nil]
  rw [establish]
  split
  · refine hnone.inOrder rfl ⟨?_, length_replicate⟩
    rw [show UInt32.ofNat 0 = 0 from rfl, UInt32.add_zero]
  · exact hnone.inOrder rfl trivial

end Delivery

/-- From the end of the handshake on, whatever frames come, the payloads that the receive loop
has written are the beginning of the peer's stream, and without `-d` they are all that it has
written. -/
theorem payloads_in_order (peerIsn : UInt32) (stream : List UInt8) (hstream : stream.length < 2 ^ 32)
    (s : Client) (hs : s.written = []) (start : Int) (sent : Bool) (polls : List Poll)
    (hframes : ∀ p ∈ polls, Carries c peerIsn stream (p.frame.take 1514)) :
    (run c (establish c peerIsn start sent s) polls).payloads <+: stream ∧
      (c.debug = false → (run c (establish c peerIsn start sent s) polls).bytes <+: stream) := by
  obtain ⟨pos, hpos, -⟩ := run_inOrder c hstream hframes (establish_inOrder c hs start sent)
  have hpre := hpos.payloads_eq ▸ take_prefix pos stream
  exact ⟨hpre, fun hdebug => hpos.bytes_eq hdebug ▸ hpre⟩

/-- The peer sends two bytes. -/
def twoBytes : Poll :=
  ⟨tcpFrame exampleConn.peer 5001 1035 (TcpPsh ||| TcpAck) (ascii "hi"), 0, 0, true⟩

theorem carries_twoBytes (debug : Bool) :
    Carries { exampleConn with debug } 5000 (ascii "hi") (twoBytes.frame.take 1514) := by
  intro off len seq flags hparse _
  have hsome : parseTcp exampleConn (twoBytes.frame.take 1514) = some (54, 2, 5001, TcpPsh ||| TcpAck) := by
    decide +kernel
  cases hsome.symm.trans hparse
  exact ⟨by decide +kernel, 0, by decide, by decide, by decide +kernel⟩

/-- The two bytes come twice and are written once. -/
theorem payloads_in_order_twice :
    (run exampleConn (establish exampleConn 5000 0 true ⟨.closed, [], [], []⟩) [twoBytes, twoBytes]).payloads <+:
      ascii "hi" :=
  (payloads_in_order exampleConn 5000 (ascii "hi") (by decide) ⟨.closed, [], [], []⟩ rfl 0 true
    [twoBytes, twoBytes] (fun p hp => by
      have hp : p = twoBytes := by simpa using hp
      rw [hp]
      exact carries_twoBytes false)).1

/-- With `-d` the line about the segment is written first. -/
theorem bytes_not_prefix_debug :
    Carries { exampleConn with debug := true } 5000 (ascii "hi") (twoBytes.frame.take 1514) ∧
      ¬ (run { exampleConn with debug := true }
          (establish { exampleConn with debug := true } 5000 0 true ⟨.closed, [], [], []⟩) [twoBytes]).bytes <+:
        ascii "hi" :=
  ⟨carries_twoBytes true, by decide +kernel⟩

end Client

/-! ## Inside the frame -/

/-- Where the smallest TCP header of a frame ends. -/
def headerEnd (frame : List UInt8) : Nat := 14 + (frame.getD 14 0 &&& 0x0f).toNat * 4 + 20

/-- What `parse_tcp` gives lies in the frame and behind the header. -/
def Inside (frame : List UInt8) : Prop :=
  ∀ off len seq flags, parseTcp c frame = some (off, len, seq, flags) →
    off + len ≤ frame.length ∧ headerEnd frame ≤ off

/-- The packet is no longer than the frame, and its data offset is at least five words. -/
def LengthsAgree (frame : List UInt8) : Prop :=
  14 + field frame 16 2 ≤ frame.length ∧ 5 ≤ (frame.getD (headerEnd frame - 8) 0 >>> 4).toNat

theorem parseTcp_lengths (h : parseTcp c frame = some (off, len, seq, flags)) :
    off ≤ frame.length ∧ off + 20 = headerEnd frame + (frame.getD (headerEnd frame - 8) 0 >>> 4).toNat * 4 ∧
      len = 14 + field frame 16 2 - off := by
  simp only [parseTcp, Option.ite_none_left_eq_some, Option.some.injEq, Prod.mk.injEq] at h
  obtain ⟨-, -, -, -, -, -, -, -, hoff, rfl, rfl, -⟩ := h
  have hdata : headerEnd frame - 8 = 14 + (frame.getD 14 0 &&& 0x0f).toNat * 4 + 12 := rfl
  rw [hdata, headerEnd]
  omega

theorem inside_iff (frame : List UInt8) :
    Inside c frame ↔ ((parseTcp c frame).isSome → LengthsAgree frame) := by
  rw [Inside, LengthsAgree]
  rcases hparse : parseTcp c frame with _ | ⟨off, len, seq, flags⟩
  · simp
  · obtain ⟨hle, hoff, hlen⟩ := parseTcp_lengths c hparse
    simp only [Option.some.injEq, Prod.mk.injEq, Option.isSome_some, forall_const]
    constructor
    · intro h
      have := h off len seq flags ⟨rfl, rfl, rfl, rfl⟩
      omega
    · rintro h _ _ _ _ ⟨rfl, rfl, rfl, rfl⟩
      omega

namespace Client

/-- A round that takes every payload it writes from the frame. -/
def SlicesFrame (frame : List UInt8) (s s' : Client) : Prop :=
  s'.phase ≠ .panicked ∧ ∀ bytes, .payload bytes ∈ s'.written →
    .payload bytes ∈ s.written ∨ ∃ off len, off + len ≤ frame.length ∧ bytes = Bytes.slice off len frame

theorem finish_quiet (l : Loop) (flags : UInt8) (s : Client) :
    (finish c l flags s).phase ≠ .panicked ∧ (finish c l flags s).written = s.written := by
  rw [finish]
  split <;> simp [send]

theorem loopRound_slicesFrame (h : Inside c (p.frame.take 1514)) (l : Loop) (s : Client) :
    SlicesFrame (p.frame.take 1514) s (loopRound c l p s) := by
  rw [loopRound]
  split
  · rw [idleRound]
    split_ifs <;> exact ⟨by simp, fun bytes hb => .inl hb⟩
  · have hlen := length_take_le 1514 p.frame
    generalize p.frame.take 1514 = frame at h hlen
    have hbrief : ∀ bytes, Output.payload bytes ∈ (s.output (.brief (debugLine c frame))).written →
        .payload bytes ∈ s.written := by simp [output]
    simp only [segment]
    split
    · exact ⟨by simp, fun bytes hb => .inl (hbrief bytes hb)⟩
    · next off len seq flags hparse =>
      have hin := (h off len seq flags hparse).1
      split
      · exact ⟨by simp, fun bytes hb => .inl (hbrief bytes hb)⟩
      · split
        · exact ⟨by simp, fun bytes hb => .inl (hbrief bytes hb)⟩
        · rw [accept]
          split
          · rw [if_neg (by omega)]
            refine ⟨(finish_quiet ..).1, fun bytes hb => ?_⟩
            rw [(finish_quiet ..).2] at hb
            rcases mem_append.mp hb with hb | hb
            · exact .inl (hbrief bytes hb)
            · cases mem_singleton.mp hb
              exact .inr ⟨off, len, hin, slice_receive hin⟩
          · refine ⟨(finish_quiet ..).1, fun bytes hb => .inl (hbrief bytes ?_)⟩
            rwa [(finish_quiet ..).2] at hb

end Client

/-- A frame is parsed inside its bounds exactly if its lengths agree, and then the receive loop
does not slice outside it. -/
theorem parseTcp_inside_iff (frame : List UInt8) :
    (Inside c frame ↔ ((parseTcp c frame).isSome → LengthsAgree frame)) ∧
      ∀ p l s, p.frame.take 1514 = frame → Inside c frame → Client.SlicesFrame frame s (Client.loopRound c l p s) :=
  ⟨inside_iff c frame, fun _ l s hp h => hp ▸ Client.loopRound_slicesFrame c (hp ▸ h) l s⟩

/-- A segment without payload whose IP header gives the greatest length. -/
def longPacket : List UInt8 := Bytes.store 16 [0xff, 0xff] (tcpFrame exampleConn.peer 5001 1035 TcpAck [])

/-- 65495 bytes of payload in a frame of 54: the receive loop panics. -/
theorem longPacket_outside : longPacket.length = 54 ∧
    parseTcp exampleConn longPacket = some (54, 65495, 5001, TcpAck) ∧
    (Client.run exampleConn (Client.establish exampleConn 5000 0 true ⟨.closed, [], [], []⟩)
      [⟨longPacket, 0, 0, true⟩]).phase matches .panicked := by
  decide +kernel

end BoruixKernel.Getnet
