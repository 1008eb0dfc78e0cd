import BoruixKernel.Lib.Bytes

/-!
# getnet

The shell command that fetches a document over HTTP.  It has a TCP of its own on raw Ethernet
frames: a handshake with up to three SYNs, one segment with the request, and a loop that takes
the segments that come in order and acknowledges all others again.

The client is a state machine over what the driver and the clock give it.  A `Poll` is one
round of `wait_tcp` or of the receive loop.  The frames handed to `sys_net_send` and the bytes
given to `sys_write` are on record.  The arguments, DNS and ARP come before; their results are
in `Conn`.
-/

namespace BoruixKernel.Getnet

def TcpFin : UInt8 := 0x01
def TcpSyn : UInt8 := 0x02
def TcpRst : UInt8 := 0x04
def TcpPsh : UInt8 := 0x08
def TcpAck : UInt8 := 0x10

def EthTypeIp : Nat := 0x0800
def IpProtoTcp : UInt8 := 6

def ascii (text : String) : List UInt8 := text.toList.map fun c => UInt8.ofNat c.toNat

/-- What `run` works with once the address of the peer is known. -/
structure Conn where
  ip : Vector UInt8 4
  mac : Vector UInt8 6
  dstMac : Vector UInt8 6
  dstIp : Vector UInt8 4
  srcPort : UInt16
  port : UInt16
  /-- The first sequence number, from the clock and the port. -/
  isn : UInt32
  path : List UInt8
  host : List UInt8
  debug : Bool

/-! ## Sending -/

/-- The sum of the 16-bit words, a last single byte as the high one. -/
def wordSum : List UInt8 → UInt32 → UInt32
  | a :: b :: rest, sum => wordSum rest (sum + UInt32.ofNat (Bytes.toNatBe [a, b]))
  | [a], sum => sum + (a.toUInt32 <<< 8)
  | [], sum => sum

/-- The loop that adds the carries; a 32-bit sum needs no more than two rounds. -/
def foldCarries : Nat → UInt32 → UInt32
  | 0, sum => sum
  | rounds + 1, sum =>
    if sum >>> 16 = 0 then sum else foldCarries rounds ((sum &&& (0xffff : UInt32)) + (sum >>> 16))

def checksum16 (data : List UInt8) : UInt16 := ~~~ (foldCarries 2 (wordSum data 0)).toUInt16

/-- The checksum of a segment with its pseudo header. -/
def tcpChecksum (src dst : List UInt8) (segment : List UInt8) : UInt16 :=
  let sum := wordSum dst (wordSum src 0) + IpProtoTcp.toUInt32 + UInt32.ofNat (segment.length % 2 ^ 16)
  ~~~ (foldCarries 2 (wordSum segment sum)).toUInt16

/-- The header with a given checksum. -/
def ipv4Fields (totalLen : Nat) (proto : UInt8) (src dst : List UInt8) (ident : Nat) (csum : UInt16) :
    List UInt8 :=
  [0x45, 0] ++ Bytes.ofNatBe 2 totalLen ++ Bytes.ofNatBe 2 ident ++ Bytes.ofNatBe 2 0x4000 ++ [64, proto] ++
    Bytes.ofNatBe 2 csum.toNat ++ src ++ dst

def buildIpv4Header (totalLen : Nat) (proto : UInt8) (src dst : List UInt8) (ident : Nat) : List UInt8 :=
  ipv4Fields totalLen proto src dst ident (checksum16 (ipv4Fields totalLen proto src dst ident 0))

variable (c : Conn)

/-- The segment with a given checksum.  A number to acknowledge sets the flag for it. -/
def tcpFields (seq ack : UInt32) (flags : UInt8) (payload : List UInt8) (csum : UInt16) : List UInt8 :=
  let ackFlag : UInt8 := if ack ≠ 0 then TcpAck else 0
  Bytes.ofNatBe 2 c.srcPort.toNat ++ Bytes.ofNatBe 2 c.port.toNat ++ Bytes.ofNatBe 4 seq.toNat ++
    Bytes.ofNatBe 4 ack.toNat ++ [(5 : UInt8) <<< 4, flags ||| ackFlag] ++ Bytes.ofNatBe 2 0x4000 ++
    Bytes.ofNatBe 2 csum.toNat ++ Bytes.ofNatBe 2 0 ++ payload

/-- `send_tcp_payload`: the frame it hands to the driver. -/
def tcpFrame (seq ack : UInt32) (flags : UInt8) (payload : List UInt8) : List UInt8 :=
  c.dstMac.toList ++ c.mac.toList ++ Bytes.ofNatBe 2 EthTypeIp ++
    buildIpv4Header (40 + payload.length) IpProtoTcp c.ip.toList c.dstIp.toList (seq.toNat % 2 ^ 16) ++
    tcpFields c seq ack flags payload
      (tcpChecksum c.ip.toList c.dstIp.toList (tcpFields c seq ack flags payload 0))

/-- A payload that does not fit into the frame is not sent. -/
def sendTcpPayload (seq ack : UInt32) (flags : UInt8) (payload : List UInt8) : List (List UInt8) :=
  if payload.length > 256 then [] else [tcpFrame c seq ack flags payload]

def sendTcp (seq ack : UInt32) (flags : UInt8) : List (List UInt8) :=
  sendTcpPayload c seq ack flags []

/-- `copy_str` to the end of the request, which has room for 256 bytes. -/
def copyStr (req src : List UInt8) : List UInt8 := req ++ src.take (256 - req.length)

def Conn.request : List UInt8 :=
  [ascii "GET ", c.path, ascii " HTTP/1.0\r\nHost: ", c.host, ascii "\r\n\r\n"].foldl copyStr []

/-! ## Receiving -/

def field (buf : List UInt8) (off len : Nat) : Nat := Bytes.toNatBe (Bytes.slice off len buf)

/-- `parse_tcp`: where the payload starts, its length, the sequence number and the flags. -/
def parseTcp (buf : List UInt8) : Option (Nat × Nat × UInt32 × UInt8) :=
  if buf.length < 54 then none
  else if field buf 12 2 ≠ EthTypeIp then none
  else
    let ihl := (buf.getD 14 0 &&& 0x0f).toNat * 4
    if buf.getD 23 0 ≠ IpProtoTcp then none
    else if Bytes.slice 26 4 buf ≠ c.dstIp.toList then none
    else if Bytes.slice 30 4 buf ≠ c.ip.toList then none
    else
      let tcpOff := 14 + ihl
      if tcpOff + 20 > buf.length then none
      else if field buf tcpOff 2 ≠ c.port.toNat then none
      else if field buf (tcpOff + 2) 2 ≠ c.srcPort.toNat then none
      else
        let dataOff := (buf.getD (tcpOff + 12) 0 >>> 4).toNat * 4
        let payloadOff := tcpOff + dataOff
        if payloadOff > buf.length then none
        else
          some (payloadOff, field buf 16 2 - (ihl + dataOff), UInt32.ofNat (field buf (tcpOff + 4) 4),
            buf.getD (tcpOff + 13) 0)

/-- What `-d` shows of a frame. -/
structure TcpBrief where
  srcIp : List UInt8
  dstIp : List UInt8
  srcPort : Nat
  dstPort : Nat
  flags : UInt8
  seq : Nat
  ack : Nat
  payloadLen : Nat

def parseTcpBrief (buf : List UInt8) : Option TcpBrief :=
  if buf.length < 54 then none
  else if field buf 12 2 ≠ EthTypeIp then none
  else
    let ihl := (buf.getD 14 0 &&& 0x0f).toNat * 4
    if buf.getD 23 0 ≠ IpProtoTcp then none
    else
      let tcpOff := 14 + ihl
      if tcpOff + 20 > buf.length then none
      else
        let dataOff := (buf.getD (tcpOff + 12) 0 >>> 4).toNat * 4
        some {
          srcIp := Bytes.slice 26 4 buf
          dstIp := Bytes.slice 30 4 buf
          srcPort := field buf tcpOff 2
          dstPort := field buf (tcpOff + 2) 2
          flags := buf.getD (tcpOff + 13) 0
          seq := field buf (tcpOff + 4) 4
          ack := field buf (tcpOff + 8) 4
          payloadLen := field buf 16 2 - (ihl + dataOff) }

/-- `write_u16` and `write_u32`. -/
def decimal (n : Nat) : List UInt8 := (Nat.toDigits 10 n).map fun c => UInt8.ofNat c.toNat

def nibble (x : UInt8) : UInt8 :=
  if x ≤ 9 then 0x30 + x else if x ≤ 15 then 0x61 + (x - 10) else 0x3f

def writeHex8 (value : UInt8) : List UInt8 := [nibble (value >>> 4), nibble (value &&& 0xF)]

def writeIp (ip : List UInt8) : List UInt8 :=
  (ascii ".").intercalate (ip.map fun b => decimal b.toNat)

/-- The line that `print_tcp_brief` writes. -/
def printTcpBrief (info : TcpBrief) : List UInt8 :=
  ascii "tcp " ++ writeIp info.srcIp ++ ascii ":" ++ decimal info.srcPort ++ ascii " -> " ++
    writeIp info.dstIp ++ ascii ":" ++ decimal info.dstPort ++ ascii " flags=" ++ writeHex8 info.flags ++
    ascii " seq=" ++ decimal info.seq ++ ascii " ack=" ++ decimal info.ack ++ ascii " len=" ++
    decimal info.payloadLen ++ ascii "\n"

/-- The line for a frame, if `-d` is given and it is a segment. -/
def debugLine (frame : List UInt8) : List UInt8 :=
  if c.debug then ((parseTcpBrief frame).map printTcpBrief).getD [] else []

/-! ## The client -/

/-- One round: the frame that `sys_net_recv` gave, empty if there was none, and the clock.  If
the round ends a wait, `next` is the clock when the next one begins; `sent` says whether the
driver takes the frame whose result is checked. -/
structure Poll where
  frame : List UInt8
  now : Int
  next : Int
  sent : Bool

/-- The variables of the receive loop. -/
structure Loop where
  seq : UInt32
  ack : UInt32
  start : Int
  buf : List UInt8
  receivedAny : Bool
  lastActivity : Int
  resendLeft : Nat

/-- A frame comes into the buffer. -/
def Loop.receive (l : Loop) (frame : List UInt8) (now : Int) : Loop :=
  { l with buf := Bytes.store 0 frame l.buf, receivedAny := true, lastActivity := now }

inductive Phase where
  /-- Waiting for the answer to a SYN, with the number of SYNs that are left. -/
  | syn (left : Nat) (since : Int)
  | loop (l : Loop)
  | closed
  | panicked

/-- What the receive loop writes: lines of `-d`, and payloads. -/
inductive Output where
  | brief (line : List UInt8)
  | payload (bytes : List UInt8)

def Output.bytes : Output → List UInt8
  | .brief line => line
  | .payload bytes => bytes

/-- The client: where it is, the frames it has sent, what it has written before the receive
loop and in it. -/
structure Client where
  phase : Phase
  sent : List (List UInt8)
  console : List UInt8
  written : List Output

namespace Client

variable (c : Conn)

def send (s : Client) (frames : List (List UInt8)) : Client := { s with sent := s.sent ++ frames }

def print (s : Client) (bytes : List UInt8) : Client := { s with console := s.console ++ bytes }

def output (s : Client) (o : Output) : Client := { s with written := s.written ++ [o] }

/-- Send a SYN and wait. -/
def sendSyn (left : Nat) (since : Int) (sent : Bool) (s : Client) : Client :=
  let s := s.send (sendTcp c c.isn 0 TcpSyn)
  if sent then { s with phase := .syn left since }
  else { s.print (ascii "getnet: send syn failed\n") with phase := .closed }

def start (since : Int) (sent : Bool) : Client := sendSyn c 2 since sent ⟨.closed, [], [], []⟩

/-- The SYN is answered: acknowledge, send the request and enter the loop. -/
def establish (peerSeq : UInt32) (start : Int) (sent : Bool) (s : Client) : Client :=
  let ack := peerSeq + 1
  let seq := c.isn + 1
  let s := s.send (sendTcp c seq ack TcpAck)
  let s := s.send (sendTcpPayload c seq ack (TcpPsh ||| TcpAck) c.request)
  if sent then
    { s with phase := .loop {
        seq := seq + UInt32.ofNat c.request.length
        ack, start
        buf := List.replicate 1514 0
        receivedAny := false
        lastActivity := start
        resendLeft := 2 } }
  else { s.print (ascii "getnet: send http failed\n") with phase := .closed }

/-- The end of a round of `wait_tcp` without an answer. -/
def synWait (left : Nat) (since : Int) (p : Poll) (s : Client) : Client :=
  if p.now - since ≥ 2 then
    match left with
    | 0 => { s.print (ascii "getnet: syn timeout\n") with phase := .closed }
    | left + 1 => sendSyn c left p.next p.sent s
  else s

/-- A segment that `wait_tcp` sees. -/
def synSegment (left : Nat) (since : Int) (p : Poll) (segment : Option (Nat × Nat × UInt32 × UInt8))
    (s : Client) : Client :=
  match segment with
  | none => synWait c left since p s
  | some (_, _, seq, flags) =>
    if flags &&& TcpRst ≠ 0 then
      { s.print (ascii "getnet: connection refused\n") with phase := .closed }
    else if flags &&& (TcpSyn ||| TcpAck) = TcpSyn ||| TcpAck then establish c seq p.next p.sent s
    else synWait c left since p s

/-- A round of `wait_tcp`. -/
def synRound (left : Nat) (since : Int) (p : Poll) (s : Client) : Client :=
  if p.frame = [] then synWait c left since p s
  else
    synSegment c left since p (parseTcp c (p.frame.take 1514)) (s.print (debugLine c (p.frame.take 1514)))

/-- Whether a round without a frame sends the request once more. -/
def resends (l : Loop) (p : Poll) : Bool :=
  p.frame = [] ∧ ¬ p.now - l.start > 8 ∧ l.receivedAny = false ∧ l.resendLeft > 0 ∧
    p.now - l.lastActivity ≥ 2

/-- A round of the receive loop without a frame. -/
def idleRound (l : Loop) (p : Poll) (s : Client) : Client :=
  if p.now - l.start > 8 then { s with phase := .closed }
  else if resends l p then
    { s.send (sendTcpPayload c l.seq l.ack (TcpPsh ||| TcpAck) c.request) with
      phase := .loop { l with resendLeft := l.resendLeft - 1, lastActivity := p.now } }
  else { s with phase := .loop l }

/-- The end of a round with a segment in order: a FIN closes the connection. -/
def finish (l : Loop) (flags : UInt8) (s : Client) : Client :=
  if flags &&& TcpFin ≠ 0 then
    { s.send (sendTcp c l.seq (l.ack + 1) (TcpAck ||| TcpFin)) with phase := .closed }
  else { s with phase := .loop l }

/-- A segment that comes in order.  The payload is taken from the whole buffer. -/
def accept (l : Loop) (off len : Nat) (flags : UInt8) (s : Client) : Client :=
  if len > 0 then
    if off + len > 1514 then { s with phase := .panicked }
    else
      finish c { l with ack := l.ack + UInt32.ofNat len } flags
        ((s.output (.payload (Bytes.slice off len l.buf))).send
          (sendTcp c l.seq (l.ack + UInt32.ofNat len) TcpAck))
  else finish c l flags s

/-- A segment that the loop sees. -/
def segment (l : Loop) (segment : Option (Nat × Nat × UInt32 × UInt8)) (s : Client) : Client :=
  match segment with
  | none => { s with phase := .loop l }
  | some (off, len, seq, flags) =>
    if flags &&& TcpRst ≠ 0 then { s with phase := .closed }
    else if seq ≠ l.ack then { s.send (sendTcp c l.seq l.ack TcpAck) with phase := .loop l }
    else accept c l off len flags s

/-- A round of the receive loop. -/
def loopRound (l : Loop) (p : Poll) (s : Client) : Client :=
  if p.frame = [] then idleRound c l p s
  else
    segment c (l.receive (p.frame.take 1514) p.now) (parseTcp c (p.frame.take 1514))
      (s.output (.brief (debugLine c (p.frame.take 1514))))

def step (s : Client) (p : Poll) : Client :=
  match s.phase with
  | .syn left since => synRound c left since p s
  | .loop l => loopRound c l p s
  | .closed | .panicked => s

/-- The client after some rounds. -/
def run (s : Client) (polls : List Poll) : Client := polls.foldl (step c) s

end Client

end BoruixKernel.Getnet
