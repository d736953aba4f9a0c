import Mathlib.Data.List.Basic
import Btide.Base.Run
import Btide.Base.Steps

/-!
# `Packet.Transfer` — packets over a stream (`packet.c`, `net/packet.h`)

A packet is sent by one call of `send` and received by one call of `recv`, each for all the bytes of the
structure. The connection carries a stream: `send` may accept, and `recv` may deliver, any non-empty part
of what it was asked for, and the two functions return the number of bytes without looking at it. What a
short `recv` does not deliver keeps its old contents in the structure.

The stream is `Framed` as long as its bytes are those of the packets sent and not yet received. A whole
transfer keeps it framed and a short one never does (`framed_iff`), so packets arrive whole and in order
as long as every transfer is whole (`packets_in_order`).
-/

namespace Btide

/-! ## `struct btide_packet` -/

def PAYLOAD_MAX : Nat := 4092

/-- `sizeof(struct btide_packet)`; the structure has no padding. -/
def PACKET_SIZE : Nat := 4 + PAYLOAD_MAX

/-- `union btide_payload`. -/
structure Payload where
  data : Str
  size : data.length = PAYLOAD_MAX
deriving DecidableEq

structure Packet where
  msgCode : UInt16
  error : UInt16
  pl : Payload
deriving DecidableEq

/-- The bytes of a `uint16_t` in memory, low byte first. -/
def uint16Bytes (x : UInt16) : Str := [x.toUInt8, (x >>> 8).toUInt8]

def uint16OfBytes (lo hi : UInt8) : UInt16 := UInt16.ofNat (lo.toNat + 256 * hi.toNat)

namespace Packet

/-- The packet as it lies in memory. -/
def toBytes (packet : Packet) : Str :=
  uint16Bytes packet.msgCode ++ uint16Bytes packet.error ++ packet.pl.data

/-- The packet that some bytes of memory are. -/
def ofBytes (image : Str) (h : image.length = PACKET_SIZE) : Packet where
  msgCode := uint16OfBytes (image.getD 0 0) (image.getD 1 0)
  error := uint16OfBytes (image.getD 2 0) (image.getD 3 0)
  pl := ⟨image.drop 4, by rw [List.length_drop, h]; rfl⟩

theorem toBytes_length (packet : Packet) : packet.toBytes.length = PACKET_SIZE := by
  simp only [toBytes, uint16Bytes, List.length_append, List.length_cons, List.length_nil, packet.pl.size]
  rfl

theorem uint16OfBytes_bytes (x : UInt16) : uint16OfBytes x.toUInt8 (x >>> 8).toUInt8 = x := by
  have hx := x.toNat_lt
  apply UInt16.toNat_inj.mp
  simp only [uint16OfBytes, UInt16.toNat_ofNat', UInt16.toNat_toUInt8, UInt16.toNat_shiftRight,
    Nat.shiftRight_eq_div_pow, UInt16.reduceToNat, Nat.reduceMod, Nat.reducePow]
  omega

theorem ofBytes_toBytes (packet : Packet) (h : packet.toBytes.length = PACKET_SIZE) :
    ofBytes packet.toBytes h = packet := by
  obtain ⟨msgCode, error, data, hdata⟩ := packet
  unfold ofBytes
  congr 1
  · exact uint16OfBytes_bytes msgCode
  · exact uint16OfBytes_bytes error

end Packet

/-! ## The stream -/

/-- The memory `old` after `segment` has been stored from its start on. -/
def overwrite (old segment : Str) : Str := (segment ++ old.drop segment.length).take old.length

theorem overwrite_length (old segment : Str) : (overwrite old segment).length = old.length := by
  unfold overwrite
  rw [List.length_take, List.length_append, List.length_drop]
  omega

theorem overwrite_whole {old segment : Str} (h : segment.length = old.length) :
    overwrite old segment = segment := by
  unfold overwrite
  rw [List.drop_eq_nil_of_le (Nat.le_of_eq h.symm), List.append_nil, ← h, List.take_length]

/-- Behind the segment nothing changes. -/
theorem overwrite_getD_ge {old segment : Str} {i : Nat} (h : segment.length ≤ i) (hi : i < old.length) :
    (overwrite old segment).getD i 0 = old.getD i 0 := by
  have hoff : segment.length + (i - segment.length) = i := by omega
  unfold overwrite
  rw [List.getD_eq_getElem?_getD, List.getD_eq_getElem?_getD, List.getElem?_take_of_lt hi,
    List.getElem?_append_right h, List.getElem?_drop, hoff]

/-- A connection: the bytes that were accepted and not yet delivered, the packets that
    `send_btide_packet` was called with, and those that `recv_btide_packet` has left to its caller. -/
structure Connection where
  inFlight : Str
  sent : List Packet
  received : List Packet

namespace Connection

def init : Connection := { inFlight := [], sent := [], received := [] }

/-- The transport accepts the first `n` bytes. -/
def sendBtidePacket (c : Connection) (packet : Packet) (n : Nat) : Connection :=
  { c with inFlight := c.inFlight ++ packet.toBytes.take n, sent := c.sent ++ [packet] }

/-- The transport delivers `n` bytes into the structure `packet`. -/
def recvBtidePacket (c : Connection) (packet : Packet) (n : Nat) : Connection :=
  let image := overwrite packet.toBytes (c.inFlight.take n)
  let packet := Packet.ofBytes image ((overwrite_length _ _).trans packet.toBytes_length)
  { c with inFlight := c.inFlight.drop n, received := c.received ++ [packet] }

/-- A call, with the number of bytes it returns; a receiving one starts from the old contents of its
    structure. -/
inductive Transfer
  | send (packet : Packet) (n : Nat)
  | recv (packet : Packet) (n : Nat)

def exec (c : Connection) : Transfer → Connection
  | .send packet n => c.sendBtidePacket packet n
  | .recv packet n => c.recvBtidePacket packet n

/-- What the transport may do: any non-empty part of what was asked for. -/
def Possible (c : Connection) : Transfer → Prop
  | .send _ n => 0 < n ∧ n ≤ PACKET_SIZE
  | .recv _ n => 0 < n ∧ n ≤ PACKET_SIZE ∧ n ≤ c.inFlight.length

def Step (c : Connection) (e : Transfer) (d : Connection) : Prop := c.Possible e ∧ d = c.exec e

abbrev Runs := Steps Step

/-- The number of bytes is that of the structure. -/
def Transfer.Whole : Transfer → Prop
  | .send _ n => n = PACKET_SIZE
  | .recv _ n => n = PACKET_SIZE

/-! ## Framing -/

/-- The received packets are the first of those sent, and the stream holds the others. -/
def Framed (c : Connection) : Prop :=
  ∃ rest, c.sent = c.received ++ rest ∧ c.inFlight = rest.flatMap Packet.toBytes

variable {c d : Connection} {e : Transfer} {es : List Transfer}

theorem length_flatMap_toBytes (packets : List Packet) :
    (packets.flatMap Packet.toBytes).length = PACKET_SIZE * packets.length := by
  induction packets with
  | nil => rfl
  | cons packet packets ih =>
      rw [List.flatMap_cons, List.length_append, ih, Packet.toBytes_length, List.length_cons,
        Nat.mul_succ, Nat.add_comm]

/-- A framed stream holds whole packets. -/
theorem Framed.length_mod (h : c.Framed) : c.inFlight.length % PACKET_SIZE = 0 := by
  obtain ⟨rest, -, hflight⟩ := h
  rw [hflight, length_flatMap_toBytes]
  exact Nat.mul_mod_right _ _

theorem init_framed : init.Framed := ⟨[], rfl, rfl⟩

/-- A whole transfer takes one packet over. -/
theorem Framed.step (h : c.Framed) (hstep : c.Step e d) (hwhole : e.Whole) : d.Framed := by
  obtain ⟨rest, hsent, hflight⟩ := h
  obtain ⟨hpossible, rfl⟩ := hstep
  cases e with
  | send packet n =>
      obtain rfl : n = PACKET_SIZE := hwhole
      refine ⟨rest ++ [packet], ?_, ?_⟩
      · show c.sent ++ [packet] = c.received ++ (rest ++ [packet])
        rw [hsent, List.append_assoc]
      · show c.inFlight ++ packet.toBytes.take PACKET_SIZE = _
        rw [List.take_of_length_le (Nat.le_of_eq packet.toBytes_length), hflight, List.flatMap_append,
          List.flatMap_singleton]
  | recv old n =>
      obtain rfl : n = PACKET_SIZE := hwhole
      obtain ⟨-, -, hready⟩ := hpossible
      cases rest with
      | nil =>
          rw [hflight] at hready
          exact absurd hready (by decide)
      | cons packet rest =>
          -- what is delivered are the bytes of the next packet
          have hcut : c.inFlight = packet.toBytes ++ rest.flatMap Packet.toBytes := hflight
          have htake : c.inFlight.take PACKET_SIZE = packet.toBytes := by
            rw [hcut, ← packet.toBytes_length, List.take_left]
          have himage : overwrite old.toBytes (c.inFlight.take PACKET_SIZE) = packet.toBytes := by
            rw [htake]
            exact overwrite_whole (packet.toBytes_length.trans old.toBytes_length.symm)
          refine ⟨rest, ?_, ?_⟩
          · show c.sent = c.received ++ [Packet.ofBytes (overwrite old.toBytes _) _] ++ rest
            simp only [himage, Packet.ofBytes_toBytes, hsent, List.append_assoc, List.singleton_append]
          · show c.inFlight.drop PACKET_SIZE = _
            rw [hcut, ← packet.toBytes_length, List.drop_left]

/-- After a short transfer the stream no longer holds whole packets. -/
theorem Framed.not_step (h : c.Framed) (hstep : c.Step e d) (hshort : ¬ e.Whole) : ¬ d.Framed := by
  intro hd
  have hc := h.length_mod
  have hmod := hd.length_mod
  obtain ⟨hpossible, rfl⟩ := hstep
  cases e with
  | send packet n =>
      obtain ⟨hpos, hle⟩ := hpossible
      have hne : n ≠ PACKET_SIZE := hshort
      have htake : (packet.toBytes.take n).length = n :=
        List.length_take_of_le (Nat.le_trans hle (Nat.le_of_eq packet.toBytes_length.symm))
      have hlen : (c.exec (.send packet n)).inFlight.length = c.inFlight.length + n := by
        show (c.inFlight ++ packet.toBytes.take n).length = _
        rw [List.length_append, htake]
      have hsize : PACKET_SIZE = 4096 := rfl
      rw [hsize] at hc hmod hle hne
      omega
  | recv old n =>
      obtain ⟨hpos, hle, hready⟩ := hpossible
      have hne : n ≠ PACKET_SIZE := hshort
      have hlen : (c.exec (.recv old n)).inFlight.length = c.inFlight.length - n := List.length_drop
      have hsize : PACKET_SIZE = 4096 := rfl
      rw [hsize] at hc hmod hle hne
      omega

/-- What the receiver can tell: it has got the first packets, and all of them once the stream is empty. -/
theorem Framed.in_order (h : c.Framed) :
    c.received <+: c.sent ∧ (c.inFlight = [] → c.received = c.sent) := by
  obtain ⟨rest, hsent, hflight⟩ := h
  refine ⟨⟨rest, hsent.symm⟩, fun hempty => ?_⟩
  have hlen := length_flatMap_toBytes rest
  rw [← hflight, hempty, List.length_nil] at hlen
  have hrest : rest.length = 0 := by
    rcases Nat.mul_eq_zero.mp hlen.symm with hzero | hzero
    · exact absurd hzero (by decide)
    · exact hzero
  rw [hsent, List.eq_nil_of_length_eq_zero hrest, List.append_nil]

/-! ## Every segmentation -/

theorem Step.unique (c : Connection) (e : Transfer) (d d' : Connection) (h : c.Step e d)
    (h' : c.Step e d') : d = d' := h.2.trans h'.2.symm

theorem framed_of_whole (h : Runs init es c) (hwhole : ∀ e ∈ es, e.Whole) : c.Framed :=
  h.invariant_of_forall (P := Transfer.Whole) Framed (fun _ _ _ hw hs hstep => hs.step hstep hw)
    hwhole init_framed

/-- **The stream stays framed exactly when every transfer is whole.** -/
theorem framed_iff (h : Runs init es c) :
    (∀ pre post d, es = pre ++ post → Runs init pre d → d.Framed) ↔ ∀ e ∈ es, e.Whole := by
  constructor
  · intro hall e he
    have heach : EachStep Step (fun _ e => e.Whole) init es := by
      refine EachStep.of_forall_reached Step.unique ?_ ?_ h init_framed hall
      · exact fun s e t hw hs hstep => hs.step hstep hw
      · exact fun s e t hs hstep hw => hs.not_step hstep hw
    obtain ⟨pre, post, rfl⟩ := List.append_of_mem he
    obtain ⟨d, hd, -⟩ := h.of_append
    exact heach pre e post d rfl hd
  · rintro hwhole pre post d rfl hd
    exact framed_of_whole hd fun e he => hwhole e (List.mem_append_left _ he)

/-- **Packets arrive whole and in order** in a run whose transfers are all whole: in every state reached
    the received packets are the first of those sent, and they are all of them once the stream is empty. -/
theorem packets_in_order (h : Runs init es c) (hwhole : ∀ e ∈ es, e.Whole) :
    ∀ pre post d, es = pre ++ post → Runs init pre d →
      d.received <+: d.sent ∧ (d.inFlight = [] → d.received = d.sent) := by
  intro pre post d hcut hd
  exact ((framed_iff h).mpr hwhole pre post d hcut hd).in_order

/-! ## One short `recv` -/

def zeroPacket : Packet := ⟨0, 0, ⟨List.replicate PAYLOAD_MAX 0, List.length_replicate⟩⟩

/-- A packet that reports an error. -/
def errorPacket : Packet := { zeroPacket with msgCode := 7, error := 1 }

theorem packets_in_order_two :
    ∃ c, Runs init [.send errorPacket PACKET_SIZE, .recv zeroPacket PACKET_SIZE] c ∧
      (c.inFlight = [] → c.received = c.sent) := by
  have hone : Runs init [.send errorPacket PACKET_SIZE] _ :=
    Steps.nil.snoc ⟨⟨by decide, Nat.le_refl _⟩, rfl⟩
  have hready : PACKET_SIZE ≤ (init.exec (.send errorPacket PACKET_SIZE)).inFlight.length := by
    have hlen : (errorPacket.toBytes.take PACKET_SIZE).length = PACKET_SIZE := by
      rw [List.length_take, errorPacket.toBytes_length, Nat.min_self]
    exact Nat.le_of_eq hlen.symm
  have htwo := hone.snoc (show Step _ (.recv zeroPacket PACKET_SIZE) _ from
    ⟨⟨by decide, Nat.le_refl _, hready⟩, rfl⟩)
  refine ⟨_, htwo, (packets_in_order htwo ?_ _ [] _ (List.append_nil _).symm htwo).2⟩
  simp [Transfer.Whole]

/-- **A packet that was never sent.** The first `recv` delivers one byte: what it leaves in the structure
    has the sent packet's code and not its error. -/
theorem packet_torn :
    ∃ c, Runs init [.send errorPacket PACKET_SIZE, .recv zeroPacket 1] c ∧
      c.sent = [errorPacket] ∧ c.received.map Packet.error = [0] ∧ ¬ c.received <+: c.sent := by
  have hone : Runs init [.send errorPacket PACKET_SIZE] _ :=
    Steps.nil.snoc ⟨⟨by decide, Nat.le_refl _⟩, rfl⟩
  have hready : 1 ≤ (init.exec (.send errorPacket PACKET_SIZE)).inFlight.length := by
    show 1 ≤ ([] ++ errorPacket.toBytes.take PACKET_SIZE).length
    rw [List.nil_append, List.length_take, errorPacket.toBytes_length]
    decide
  have htwo := hone.snoc (show Step _ (.recv zeroPacket 1) _ from
    ⟨⟨by decide, by decide, hready⟩, rfl⟩)
  -- two bytes of the structure are old ones
  have hsegment : ((init.exec (.send errorPacket PACKET_SIZE)).inFlight.take 1).length ≤ 2 := by
    rw [List.length_take]
    omega
  have hold : 3 < zeroPacket.toBytes.length := by
    rw [zeroPacket.toBytes_length]
    decide
  have herror : (((init.exec (.send errorPacket PACKET_SIZE)).exec (.recv zeroPacket 1)).received.map
      Packet.error) = [0] := by
    show [uint16OfBytes (List.getD _ 2 0) (List.getD _ 3 0)] = [0]
    rw [overwrite_getD_ge hsegment (by omega), overwrite_getD_ge (Nat.le_succ_of_le hsegment) hold]
    rfl
  refine ⟨_, htwo, rfl, herror, fun hpre => ?_⟩
  have hsent := hpre.map Packet.error
  rw [herror] at hsent
  exact absurd hsent (by decide)

end Connection

end Btide
