/-
# Pmemds.Rpc — `pmemds-common.h` and the clients that build requests

A request carries the operation, the type and the id of its data structure in one word.  The setters
write with a bitwise or, so that the fields of a word that starts at 0 are read back (`opId_pack`,
`typeId_pack`), but the id has 8 bits there and 16 bits in the clients: what is read back is its low
byte (`dsId_pack`).
-/
import Mathlib.Data.Nat.Bitwise
import Mathlib.Data.BitVec

namespace Cyclone.Pmemds

set_option autoImplicit false

/-! ## Codes -/

/-- `opnames`. -/
inductive OpName
  | openLib
  | closeLib
  | createDs
  | closeDs
  | removeDs
  | get
  | put
  | delete
  | insert
  | increasePrio
  | decreasePrio
  | getTopk
  | addEdge
  | removeEdge
  | addNode
  | removeNode
  | vertexOutdegree
  | incidentTriangles
deriving DecidableEq, Repr

/-- The names in the order of their codes. -/
def OpName.all : List OpName :=
  [.openLib, .closeLib, .createDs, .closeDs, .removeDs, .get, .put, .delete, .insert, .increasePrio,
    .decreasePrio, .getTopk, .addEdge, .removeEdge, .addNode, .removeNode, .vertexOutdegree, .incidentTriangles]

def OpName.code (op : OpName) : Nat := OpName.all.idxOf op

/-- The name that a `switch` over the codes takes a code for. -/
def OpName.ofCode (code : Nat) : Option OpName := OpName.all[code]?

@[simp] theorem OpName.ofCode_code (op : OpName) : OpName.ofCode op.code = some op := by
  cases op <;> rfl

theorem OpName.code_lt (op : OpName) : op.code < 256 := by
  cases op <;> decide

/-- `dstypes`. -/
inductive DsType
  | sortedBtree
  | concurrentHashmap
  | shardedHashmap
  | shardedPriorityQueue
  | adjacencyVector
  | vector
deriving DecidableEq, Repr

def DsType.all : List DsType :=
  [.sortedBtree, .concurrentHashmap, .shardedHashmap, .shardedPriorityQueue, .adjacencyVector, .vector]

def DsType.code (type : DsType) : Nat := DsType.all.idxOf type

def DsType.ofCode (code : Nat) : Option DsType := DsType.all[code]?

theorem DsType.code_lt (type : DsType) : type.code < 16 := by
  cases type <;> decide

/-- `PMStatus`. -/
inductive Status
  | failed
  | ok
  | notFound
  | invalidOp
deriving DecidableEq, Repr

def Status.code : Status → Nat
  | .failed => 255
  | .ok => 0
  | .notFound => 1
  | .invalidOp => 2

/-! ## The word -/

abbrev Meta := BitVec 32

def opId (x : Meta) : Nat := (x &&& 0xff).toNat

def typeId (x : Meta) : Nat := ((x >>> 8) &&& 0xf).toNat

def dsId (x : Meta) : Nat := ((x >>> 12) &&& 0xff).toNat

def setOpId (x : Meta) (y : Nat) : Meta := x ||| BitVec.ofNat 32 y

def setTypeId (x : Meta) (y : Nat) : Meta := x ||| (BitVec.ofNat 32 y <<< 8)

def setDsId (x : Meta) (y : Nat) : Meta := x ||| (BitVec.ofNat 32 y <<< 12)

/-- `STATUS`. -/
def statusOf (x : Meta) : Nat := ((x >>> 20) &&& 0xf).toNat

def setStatus (x : Meta) (y : Nat) : Meta := x ||| (BitVec.ofNat 32 y <<< 20)

/-- The word of a request: the order of the setters does not matter. -/
def pack (op : OpName) (type : DsType) (id : BitVec 16) : Meta :=
  setDsId (setTypeId (setOpId 0 op.code) type.code) id.toNat

section Pack

variable (op : OpName) (type : DsType) (id : BitVec 16)

theorem toNat_pack : (pack op type id).toNat = op.code + 2 ^ 8 * type.code + 2 ^ 12 * id.toNat := by
  have small := op.code_lt
  have narrow := type.code_lt
  have wide : id.toNat < 2 ^ 16 := id.isLt
  have low : op.code ||| type.code <<< 8 = op.code + 2 ^ 8 * type.code := by
    rw [Nat.or_comm, ← Nat.shiftLeft_add_eq_or_of_lt small, Nat.shiftLeft_eq]
    omega
  have all : (op.code + 2 ^ 8 * type.code) ||| id.toNat <<< 12 =
      op.code + 2 ^ 8 * type.code + 2 ^ 12 * id.toNat := by
    rw [Nat.or_comm, ← Nat.shiftLeft_add_eq_or_of_lt (by omega), Nat.shiftLeft_eq]
    omega
  simp only [pack, setDsId, setTypeId, setOpId, BitVec.toNat_or, BitVec.toNat_shiftLeft, BitVec.toNat_ofNat]
  rw [Nat.mod_eq_of_lt (show op.code < 2 ^ 32 by omega), Nat.mod_eq_of_lt (show type.code < 2 ^ 32 by omega),
    Nat.mod_eq_of_lt (show id.toNat < 2 ^ 32 by omega),
    Nat.mod_eq_of_lt (show type.code <<< 8 < 2 ^ 32 by rw [Nat.shiftLeft_eq]; omega),
    Nat.mod_eq_of_lt (show id.toNat <<< 12 < 2 ^ 32 by rw [Nat.shiftLeft_eq]; omega)]
  rw [show (0 : BitVec 32).toNat = 0 from rfl, Nat.zero_or, low, all]

theorem toNat_field (x : Meta) (shift width : Nat) (narrow : width ≤ 32) :
    ((x >>> shift) &&& BitVec.ofNat 32 (2 ^ width - 1)).toNat = x.toNat / 2 ^ shift % 2 ^ width := by
  have fits : 2 ^ width - 1 < 2 ^ 32 := by
    have : 2 ^ width ≤ 2 ^ 32 := Nat.pow_le_pow_right (by decide) narrow
    have := Nat.two_pow_pos width
    omega
  rw [BitVec.toNat_and, BitVec.toNat_ushiftRight, BitVec.toNat_ofNat, Nat.mod_eq_of_lt fits,
    Nat.shiftRight_eq_div_pow, Nat.and_two_pow_sub_one_eq_mod]

@[simp] theorem opId_pack : opId (pack op type id) = op.code := by
  have field := toNat_field (pack op type id) 0 8 (by decide)
  have small := op.code_lt
  rw [toNat_pack] at field
  refine (show opId _ = _ from ?_).trans (field.trans (by omega))
  rw [opId, BitVec.ushiftRight_zero]
  rfl

@[simp] theorem typeId_pack : typeId (pack op type id) = type.code := by
  have field := toNat_field (pack op type id) 8 4 (by decide)
  have small := op.code_lt
  have narrow := type.code_lt
  rw [toNat_pack] at field
  exact field.trans (by omega)

/-- The id comes back as its low byte. -/
@[simp] theorem dsId_pack : dsId (pack op type id) = id.toNat % 256 := by
  have field := toNat_field (pack op type id) 12 8 (by decide)
  have small := op.code_lt
  have narrow := type.code_lt
  rw [toNat_pack] at field
  exact field.trans (by omega)

end Pack

/-! ## Requests and responses -/

abbrev Byte := BitVec 8

/-- `pm_rpc_t`. -/
structure PmRpc where
  word : Meta
  key : BitVec 64
  value : Vector Byte 16
deriving DecidableEq

/-- The string at the start of a field. -/
def cString (bytes : List Byte) : List Byte := bytes.takeWhile (· ≠ 0)

/-- `snprintf(value, MAX_VAL_LENGTH, "%s", s)` into a field of zeros. -/
def printed (s : List Byte) : Vector Byte 16 :=
  Vector.ofFn fun i => ((cString s).take 15).getD i 0

/-- The number in the first eight bytes: `key2`, and what `parse_priority` reads. -/
def PmRpc.key2 (r : PmRpc) : Nat := (r.value.toList.take 8).foldr (fun b n => b.toNat + 256 * n) 0

/-- A field that holds a number in its first eight bytes. -/
def ofKey2 (n : BitVec 64) : Vector Byte 16 :=
  Vector.ofFn fun i => if i.val < 8 then (n >>> (8 * i.val)).setWidth 8 else 0

def zeros : Vector Byte 16 := Vector.replicate 16 0

/-- A response from `calloc`, with a status. -/
def respond (status : Status) (key : BitVec 64) (value : Vector Byte 16) : PmRpc :=
  ⟨setStatus 0 status.code, key, value⟩

/-- A response that holds nothing but a status. -/
def answer (status : Status) : PmRpc := respond status 0 zeros

/-! ## Clients -/

/-- A client engine: the type and the id it was constructed with. -/
structure Client where
  type : DsType
  id : BitVec 16
deriving DecidableEq, Repr

/-- What a request of a client engine asks for. -/
inductive Ask
  | create
  | close
  | remove
  | get (key : BitVec 64)
  | put (key : BitVec 64) (value : List Byte)
  | delete (key : BitVec 64)
  | insert (key priority : BitVec 64)
  | increasePrio (key : BitVec 32) (delta : BitVec 64)
  | decreasePrio (key : BitVec 32) (delta : BitVec 64)
  | addEdge (fromNode toNode : BitVec 64)
  | vertexOutdegree (node : BitVec 64)
deriving DecidableEq, Repr

namespace Client

variable (c : Client)

/-- A payload of a client. -/
def payload (op : OpName) (key : BitVec 64) (value : Vector Byte 16) : PmRpc := ⟨pack op c.type c.id, key, value⟩

/-- The requests of the client engines. -/
def request : Ask → PmRpc
  | .create => c.payload .createDs 0 zeros
  | .close => c.payload .closeDs 0 zeros
  | .remove => c.payload .removeDs 0 zeros
  | .get key => c.payload .get key zeros
  | .put key value => c.payload .put key (printed value)
  | .delete key => c.payload .delete key zeros
  | .insert key priority => c.payload .insert key (ofKey2 priority)
  | .increasePrio key delta => c.payload .increasePrio (key.setWidth 64) (ofKey2 delta)
  | .decreasePrio key delta => c.payload .decreasePrio (key.setWidth 64) (ofKey2 delta)
  | .addEdge fromNode toNode => c.payload .addEdge fromNode (ofKey2 toNode)
  | .vertexOutdegree node => c.payload .vertexOutdegree node zeros

end Client

/-- `PMClient::open`. -/
def openRequest (appname : List Byte) : PmRpc := ⟨setOpId 0 OpName.openLib.code, 0, printed appname⟩

/-- `PMClient::close`. -/
def closeRequest (appname : List Byte) : PmRpc := ⟨setOpId 0 OpName.closeLib.code, 0, printed appname⟩

/-- `PMClient::topk`. -/
def topkRequest : PmRpc := ⟨setOpId 0 OpName.getTopk.code, 0, zeros⟩

end Cyclone.Pmemds
