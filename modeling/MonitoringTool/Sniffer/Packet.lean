import Mathlib.Algebra.Group.Int.Defs
import Mathlib.Algebra.Group.Nat.Defs
import Mathlib.Data.List.Basic

/-!
# Packets and sequence nodes

`packet_t` of `packet.h` is the sniffer's parsed frame, `seq_t` of `order.h` a
node of a flow's order lists, and `seq_pkt` makes the second from the first.

A packet object has one owner chain and is referenced by at most one node, so a
node carries the packet's contents themselves (`pkt`), while chains and logs
name a packet by its address `addr`.  Only the members some function reads are
kept.
-/

namespace MonitoringTool.Sniffer

/-! ## Constants of `packet.h` -/

def TH_FIN : UInt8 := 0x01
def TH_SYN : UInt8 := 0x02
def TH_RST : UInt8 := 0x04
def TH_ACK : UInt8 := 0x10

/-- `type` of a packet whose payload begins a request. -/
def REQ : UInt8 := 0x01

/-- `type` of a packet whose payload begins a response. -/
def RSP : UInt8 := 0x10

/-- `(flags & f) == f` for one of the flags above. -/
def hasFlag (flags f : UInt8) : Bool := flags &&& f = f

/-! ## Packets -/

/-- `packet_t`.  `tcpOdata` is the allocated copy of the payload (`none` for
`NULL`) and `tcpData` the offset into it that the pointer `tcp_data` has. -/
structure PacketT where
  addr : Nat
  capSec : Int
  capUsec : Int
  rawLen : UInt32
  saddr : UInt32
  daddr : UInt32
  sport : UInt16
  dport : UInt16
  ipHl : UInt8
  ipTol : UInt16
  ipPro : UInt8
  tcpSeq : UInt32
  tcpAck : UInt32
  tcpFlags : UInt8
  tcpHl : UInt8
  tcpDl : UInt16
  type : UInt8
  tcpOdata : Option (List UInt8)
  tcpData : Option Nat
  deriving DecidableEq

/-! ## Nodes of the order lists -/

/-- `seq_t`, less its `next` pointer: the lists are lists here. -/
structure SeqT where
  pkt : Option PacketT
  seq : UInt32
  nxtSeq : UInt32
  ack : Bool
  thFlags : UInt8
  capSec : Int
  capUsec : Int
  processed : Bool
  size : UInt32
  deriving DecidableEq

/-- `seq_pkt`: a SYN or a FIN takes one sequence number more. -/
def seqPkt (p : PacketT) : SeqT where
  pkt := some p
  seq := p.tcpSeq
  nxtSeq :=
    if hasFlag p.tcpFlags TH_SYN || hasFlag p.tcpFlags TH_FIN then
      p.tcpSeq + p.tcpDl.toUInt32 + 1
    else
      p.tcpSeq + p.tcpDl.toUInt32
  ack := hasFlag p.tcpFlags TH_ACK
  thFlags := p.tcpFlags
  capSec := p.capSec
  capUsec := p.capUsec
  processed := false
  size := p.tcpDl.toUInt32

@[simp] theorem seqPkt_seq (p : PacketT) : (seqPkt p).seq = p.tcpSeq := rfl

@[simp] theorem seqPkt_pkt (p : PacketT) : (seqPkt p).pkt = some p := rfl

@[simp] theorem seqPkt_thFlags (p : PacketT) : (seqPkt p).thFlags = p.tcpFlags := rfl

@[simp] theorem seqPkt_processed (p : PacketT) : (seqPkt p).processed = false := rfl

theorem seqPkt_nxtSeq_of_plain {p : PacketT} (hsyn : hasFlag p.tcpFlags TH_SYN = false)
    (hfin : hasFlag p.tcpFlags TH_FIN = false) :
    (seqPkt p).nxtSeq = p.tcpSeq + p.tcpDl.toUInt32 := by
  simp [seqPkt, hsyn, hfin]

end MonitoringTool.Sniffer
