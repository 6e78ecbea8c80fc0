import OpenShmem.Library.LittleEndian

namespace OpenShmem
open LittleEndian

structure Header where
  handler : BitVec 8
  origin : BitVec 32
  requestIndex : BitVec 64
  size : BitVec 64
  heapOffset : BitVec 64
deriving DecidableEq, Repr

-- sizeof(packet_t), which is packed.
def packetSize : Nat := 29

def Header.bytes (header : Header) : List UInt8 :=
  LittleEndian.bytes 1 header.handler.toNat ++ (LittleEndian.bytes 4 header.origin.toNat ++
    (LittleEndian.bytes 8 header.requestIndex.toNat ++ (LittleEndian.bytes 8 header.size.toNat ++
      LittleEndian.bytes 8 header.heapOffset.toNat)))

def Header.read (memory : List UInt8) : Header where
  handler := BitVec.ofNat 8 (value (memory.take 1))
  origin := BitVec.ofNat 32 (value ((memory.drop 1).take 4))
  requestIndex := BitVec.ofNat 64 (value ((memory.drop 5).take 8))
  size := BitVec.ofNat 64 (value ((memory.drop 13).take 8))
  heapOffset := BitVec.ofNat 64 (value ((memory.drop 21).take 8))

@[simp] theorem Header.length_bytes (header : Header) : header.bytes.length = packetSize := by
  simp [Header.bytes,packetSize]

theorem drop_field (width n skip : Nat) (rest : List UInt8) :
    (LittleEndian.bytes width n ++ rest).drop (width + skip) = rest.drop skip := by
  rw [List.drop_append]
  simp

theorem take_field (width n : Nat) (rest : List UInt8) :
    (LittleEndian.bytes width n ++ rest).take width = LittleEndian.bytes width n :=
  List.take_left' LittleEndian.length_bytes

theorem Header.read_bytes (header : Header) (rest : List UInt8) : Header.read (header.bytes ++ rest) = header := by
  obtain ⟨handler,origin,requestIndex,size,heapOffset⟩ := header
  simp only [Header.read,Header.bytes,Header.mk.injEq,List.append_assoc]
  refine ⟨?_,?_,?_,?_,?_⟩
  · rw [take_field]
    exact word_bytes handler (by decide)
  · rw [drop_field 1 _ 0,List.drop_zero,take_field]
    exact word_bytes origin (by decide)
  · rw [drop_field 1 _ 4,drop_field 4 _ 0,List.drop_zero,take_field]
    exact word_bytes requestIndex (by decide)
  · rw [drop_field 1 _ 12,drop_field 4 _ 8,drop_field 8 _ 0,List.drop_zero,take_field]
    exact word_bytes size (by decide)
  · rw [drop_field 1 _ 20,drop_field 4 _ 16,drop_field 8 _ 8,drop_field 8 _ 0,List.drop_zero,take_field]
    exact word_bytes heapOffset (by decide)

structure Packet where
  header : Header
  data : List UInt8
  sized : data.length = header.size.toNat
deriving DecidableEq

def Packet.bytes (packet : Packet) : List UInt8 := packet.header.bytes ++ packet.data

@[simp] theorem Packet.length_bytes (packet : Packet) : packet.bytes.length = packetSize + packet.data.length := by
  simp [Packet.bytes]

structure Source where
  bytes : List UInt8
  fits : bytes.length < 2^64
deriving DecidableEq

def handlerPut : BitVec 8 := 0

-- comm_remote_put does not set request_index, which keeps what the memory held.
def putPacket (me : Nat) (dest : BitVec 64) (src : Source) (prior : BitVec 64) : Packet where
  header := ⟨handlerPut,BitVec.ofNat 32 me,prior,BitVec.ofNat 64 src.bytes.length,dest⟩
  data := src.bytes
  sized := (Nat.mod_eq_of_lt src.fits).symm

-- A buffer that the queue owns, or memory of the caller, read when the job is executed.
inductive JobSource where
  | buffer (bytes : List UInt8)
  | caller
deriving DecidableEq, Repr

structure WorkJob where
  handler : BitVec 8
  destPe : Nat
  originPe : BitVec 32
  dest : BitVec 64
  src : JobSource
  size : BitVec 64
deriving DecidableEq, Repr

-- What a received packet is to be handed to work_put_remote as.
def Packet.job (me : Nat) (packet : Packet) : WorkJob :=
  ⟨packet.header.handler,me,packet.header.origin,packet.header.heapOffset,.buffer packet.data,packet.header.size⟩

end OpenShmem
