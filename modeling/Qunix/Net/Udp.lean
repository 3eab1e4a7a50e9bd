import Qunix.Foundation.Bytes

/-! # Datagrams

`send` and `receive` of `net/udp/mod.rs` over those of `net/ip/mod.rs`, up to the queues of the
sockets in `net/socket/mod.rs`. A packet arrives as it was sent.
-/

namespace Qunix.Net

open Foundation Bytes BitVec List

/-! ## Packets -/

/-- The carries are added until the sum has sixteen bits. -/
def foldCarries (sum : Nat) : Nat :=
  if sum / 65536 = 0 then sum else foldCarries (sum % 65536 + sum / 65536)
decreasing_by omega

def ipChecksum (header : List UInt8) : Nat :=
  65535 - foldCarries ((List.range 10).map fun index => readBe16 header (2 * index)).sum

/-- The total length wraps, and the checksum has the byte order of the machine. -/
def ipFields (src dst : BitVec 32) (proto : UInt8) (payloadLen checksum : Nat) : List UInt8 :=
  [0x45, 0] ++ be16 (payloadLen + 20) ++ [0, 0, 0, 0, 64, proto] ++ le16 checksum ++
    be32 src.toNat ++ be32 dst.toNat

def ipHeader (src dst : BitVec 32) (proto : UInt8) (payloadLen : Nat) : List UInt8 :=
  ipFields src dst proto payloadLen (ipChecksum (ipFields src dst proto payloadLen 0))

def ipSend (localIp dst : BitVec 32) (proto : UInt8) (payload : List UInt8) : List UInt8 :=
  ipHeader localIp dst proto (payload.length % 65536) ++ payload

def udpHeader (srcPort dstPort : BitVec 16) (length : Nat) : List UInt8 :=
  be16 srcPort.toNat ++ be16 dstPort.toNat ++ be16 length ++ be16 0

/-- The packet gets `length` bytes, and `send` panics unless the data fills them. -/
def udpSend (localIp _srcIp dstIp : BitVec 32) (srcPort dstPort : BitVec 16)
    (data : List UInt8) : Option (List UInt8) :=
  let length := (8 + data.length) % 65536
  if length = 8 + data.length then
    some (ipSend localIp dstIp 17 (udpHeader srcPort dstPort length ++ data))
  else none

/-! ## Sockets -/

structure Datagram where
  srcIp : BitVec 32
  srcPort : BitVec 16
  data : List UInt8

/-- The queues of the ports that `udp::bind` has bound. -/
def UdpSockets : Type := BitVec 16 → Option (List Datagram)

def UdpSockets.push (self : UdpSockets) (port : BitVec 16) (datagram : Datagram) : UdpSockets :=
  fun other => if other = port then (self other).map (· ++ [datagram]) else self other

/-- A socket of a process, as far as datagrams are concerned. -/
structure Socket where
  isDgram : Bool
  localAddr : Option (BitVec 32 × BitVec 16)
  udpRecvQ : List Datagram

namespace Socket

/-- A socket without an address has the port 0. -/
def isFor (self : Socket) (dstIp : BitVec 32) (dstPort : BitVec 16) : Bool :=
  let bound := self.localAddr.getD (0, 0)
  self.isDgram && bound.2 == dstPort && (bound.1 == 0 || bound.1 == dstIp)

def push (self : Socket) (datagram : Datagram) : Socket :=
  { self with udpRecvQ := self.udpRecvQ ++ [datagram] }

/-- At most 64 datagrams wait. -/
def offer (self : Socket) (datagram : Datagram) : Socket :=
  if self.udpRecvQ.length < 64 then self.push datagram else self

end Socket

/-- Change the first socket that a datagram is for. -/
def changeFirst (isFor : Socket → Bool) (change : Socket → Socket) : List Socket → List Socket
  | [] => []
  | socket :: rest =>
    if isFor socket then change socket :: rest else socket :: changeFirst isFor change rest

/-- Both tables of sockets, the second one in the order of the descriptors. -/
structure Host where
  bound : UdpSockets
  sockets : List Socket

namespace Host

def udpDeliver (self : Host) (dstIp : BitVec 32) (dstPort : BitVec 16) (datagram : Datagram) :
    Host :=
  { self with sockets := changeFirst (·.isFor dstIp dstPort) (·.offer datagram) self.sockets }

def udpReceive (self : Host) (srcIp dstIp : BitVec 32) (datagram : List UInt8) : Host :=
  if datagram.length < 8 then self
  else
    let dstPort := .ofNat 16 (readBe16 datagram 2)
    let received := ⟨srcIp, .ofNat 16 (readBe16 datagram 0), datagram.drop 8⟩
    { self with bound := self.bound.push dstPort received }.udpDeliver dstIp dstPort received

/-- Other protocols leave the queues alone. -/
def ipReceive (self : Host) (packet : List UInt8) : Host :=
  let ihl := byteAt packet 0 % 16 * 4
  if packet.length < 20 ∨ byteAt packet 0 / 16 ≠ 4 ∨ packet.length < ihl then self
  else if byteAt packet 9 = 17 then
    self.udpReceive (.ofNat 32 (readBe32 packet 12)) (.ofNat 32 (readBe32 packet 16))
      (packet.drop ihl)
  else self

/-! ## From one end to the other -/

theorem readBe16_be16 (port : BitVec 16) (rest : List UInt8) :
    BitVec.ofNat 16 (readBe16 (be16 port.toNat ++ rest) 0) = port := by
  have small := port.isLt
  apply eq_of_toNat_eq
  simp only [readBe16, byteAt, be16, List.cons_append, nil_append, getD_cons_zero,
    getD_cons_succ, UInt8.toNat_ofNat', zero_add, toNat_ofNat]
  omega

theorem ipReceive_ipSend (self : Host) (src dst : BitVec 32) (payload : List UInt8) :
    self.ipReceive (ipSend src dst 17 payload) = self.udpReceive src dst payload := by
  have source : readBe32 (ipSend src dst 17 payload) 12 = src.toNat :=
    readBe32_be32 src.isLt (be32 dst.toNat ++ payload)
  have target : readBe32 (ipSend src dst 17 payload) 16 = dst.toNat :=
    readBe32_be32 dst.isLt payload
  have whole : (ipSend src dst 17 payload).length = payload.length + 20 := rfl
  have version : byteAt (ipSend src dst 17 payload) 0 = 0x45 := rfl
  have proto : byteAt (ipSend src dst 17 payload) 9 = 17 := rfl
  rw [ipReceive, source, target, whole, version, proto, if_neg (by omega), if_pos rfl,
    ofNat_toNat, setWidth_eq, ofNat_toNat, setWidth_eq]
  rfl

theorem udpReceive_header (self : Host) (srcIp dstIp : BitVec 32) (srcPort dstPort : BitVec 16)
    (length : Nat) (data : List UInt8) :
    self.udpReceive srcIp dstIp (udpHeader srcPort dstPort length ++ data) =
      { self with bound := self.bound.push dstPort ⟨srcIp, srcPort, data⟩ }.udpDeliver dstIp
        dstPort ⟨srcIp, srcPort, data⟩ := by
  have source := readBe16_be16 srcPort (be16 dstPort.toNat ++ be16 length ++ be16 0 ++ data)
  have target := readBe16_be16 dstPort (be16 length ++ be16 0 ++ data)
  have whole : (udpHeader srcPort dstPort length ++ data).length = data.length + 8 := rfl
  rw [udpReceive, if_neg (by omega)]
  exact congrArg₂ (fun port source => Host.udpDeliver
    { self with bound := self.bound.push port ⟨srcIp, source, data⟩ } dstIp port
      ⟨srcIp, source, data⟩) target source

/-- What is sent is queued as it is at the sockets that are bound to the port, and nothing else
changes. -/
def Delivered (self : Host) (localIp srcIp dstIp : BitVec 32) (srcPort dstPort : BitVec 16)
    (data : List UInt8) : Prop :=
  ∃ packet, udpSend localIp srcIp dstIp srcPort dstPort data = some packet ∧
    self.ipReceive packet =
      ⟨self.bound.push dstPort ⟨srcIp, srcPort, data⟩,
        changeFirst (·.isFor dstIp dstPort) (·.push ⟨srcIp, srcPort, data⟩) self.sockets⟩

/-- Where a socket is bound, the sender gives its own address, and the socket of a process has
room. -/
def Ready (self : Host) (localIp srcIp dstIp : BitVec 32) (dstPort : BitVec 16) : Prop :=
  (self.bound dstPort ≠ none → srcIp = localIp) ∧
    ∀ socket, self.sockets.find? (·.isFor dstIp dstPort) = some socket →
      srcIp = localIp ∧ socket.udpRecvQ.length < 64

variable {sent received : Datagram}

theorem push_eq_iff {bound : UdpSockets} {port : BitVec 16} :
    bound.push port received = bound.push port sent ↔ (bound port ≠ none → sent = received) := by
  constructor
  · intro same isBound
    rcases Option.ne_none_iff_exists'.mp isBound with ⟨queue, found⟩
    have queues := congrFun same port
    simp only [UdpSockets.push, if_true, found, Option.map_some, Option.some.injEq] at queues
    exact (singleton_inj.mp (append_cancel_left queues)).symm
  · intro same
    funext other
    simp only [UdpSockets.push]
    split
    next isPort =>
      cases found : bound other with
      | none => rfl
      | some queue => rw [same (by simp [← isPort, found])]
    next => rfl

theorem offer_eq_iff {socket : Socket} : socket.offer received = socket.push sent ↔
    sent = received ∧ socket.udpRecvQ.length < 64 := by
  rw [Socket.offer]
  split
  next room => simp [Socket.push, room, eq_comm]
  next full =>
    refine ⟨fun same => ?_, fun room => absurd room.2 full⟩
    simpa [Socket.push] using congrArg Socket.udpRecvQ same

theorem changeFirst_eq_iff {isFor : Socket → Bool} {sockets : List Socket} :
    changeFirst isFor (·.offer received) sockets = changeFirst isFor (·.push sent) sockets ↔
      ∀ socket, sockets.find? isFor = some socket →
        sent = received ∧ socket.udpRecvQ.length < 64 := by
  induction sockets with
  | nil => simp [changeFirst]
  | cons socket rest induction =>
    rw [changeFirst, changeFirst, find?_cons]
    cases isFor socket with
    | true => simp [offer_eq_iff]
    | false => simpa using induction

end Host

end Qunix.Net
