import Rustarmic.Guest.DataProcessing

/-!
# Loads and stores as the architecture defines them

* `Transfer` — what is done with the register of an access; `exec` is the access, `execPair` that of
  two registers.
* `indexed` — the address, and what becomes of the base.
* `decodeSingle`, `decodePair`, `decodeLiteral` — the transfers by the fields of the encodings.

Where a register is both the base and transferred, which the architecture leaves open, the order is
that of the manual's text: what is loaded is written before the base.

The definitions are put together the other way round than a translator: from the instruction down to
the access.  The manual has a page for each of the classes, with tables of `size`, `V` and `opc`; an
entry without an instruction is `none` here.  Nothing is shared with the translators except the
machine and its memory, so that a field that is read wrongly there cannot be read wrongly here in
the same way.

Memory is read and written in bytes, low end first, with addresses that wrap.  Register 31 is the
stack pointer as a base and the zero register as a transferred one.
-/

set_option autoImplicit false

namespace Rustarmic
namespace Guest

open ModularMemory

/-! ## Transfers -/

/-- What is done with the register of an access. -/
inductive Transfer where
  | store
  | load
  /-- The value is sign-extended to a register of so many bits. -/
  | loadSigned (K : Nat)
  | storeV
  | loadV
  | prefetch
  deriving DecidableEq, Repr

namespace Transfer

/-- Whether the memory is read. -/
def loads : Transfer → Bool
  | load | loadSigned _ | loadV => true
  | _ => false

/-- What a store writes. -/
def get (t : Transfer) (bytes rt : Nat) (m : Machine) : BitVec (8 * bytes) :=
  match t with
  | storeV => (m.v rt).setWidth (8 * bytes)
  | _ => X (8 * bytes) m rt

/-- The register of a load: the rest of it is cleared. -/
def put (t : Transfer) {N : Nat} (rt : Nat) (data : BitVec N) (m : Machine) : Machine :=
  match t with
  | load => setX m rt data
  | loadSigned K => setX m rt (data.signExtend K)
  | loadV => m.writeV rt (data.setWidth 128)
  | _ => m

end Transfer

/-- `Mem[]`. -/
def memRead (m : Machine) (addr : U64) (bytes : Nat) : BitVec (8 * bytes) :=
  read (8 * bytes) m.memory addr bytes

def memWrite (m : Machine) (addr : U64) (bytes : Nat) (data : BitVec (8 * bytes)) : Machine :=
  m.store addr bytes (data.setWidth 128)

/-- The access of one register. -/
def Transfer.exec (t : Transfer) (bytes rt : Nat) (addr : U64) (m : Machine) : Machine :=
  if t = prefetch then m
  else if t.loads then t.put rt (memRead m addr bytes) (m.load addr bytes)
  else memWrite m addr bytes (t.get bytes rt m)

/-- The accesses of two registers: both are made before a register is written. -/
def Transfer.execPair (t : Transfer) (bytes rt rt2 : Nat) (addr : U64) (m : Machine) : Machine :=
  let addr2 := addr + BitVec.ofNat 64 bytes
  if t.loads then
    t.put rt2 (memRead m addr2 bytes)
      (t.put rt (memRead m addr bytes) ((m.load addr bytes).load addr2 bytes))
  else memWrite (memWrite m addr bytes (t.get bytes rt m)) addr2 bytes (t.get bytes rt2 m)

/-! ## Addresses -/

inductive Index where
  | offset | pre | post
  deriving DecidableEq, Repr

/-- The base: register 31 is the stack pointer. -/
def base (m : Machine) (n : Nat) : U64 := if n = zrEncoding then m.sp else m.x n

def writeBase (m : Machine) (n : Nat) (addr : U64) : Machine :=
  if n = zrEncoding then { m with sp := addr } else { m with x := Function.update m.x n addr }

/-- An access at the base or at a distance from it. -/
def indexed (index : Index) (n : Nat) (offset : U64) (access : U64 → Machine → Machine)
    (m : Machine) : Machine :=
  let addr := base m n + offset
  match index with
  | .offset => access addr m
  | .pre => writeBase (access addr m) n addr
  | .post => writeBase (access (base m n) m) n addr

/-! ## Encodings -/

/-- The transfer of a single register and the logarithm of its bytes, by the fields `size`, `V` and
`opc`; none where no instruction is allocated. -/
def decodeSingle (size V opc : Nat) : Option (Transfer × Nat) :=
  if V = 1 then
    let scale := 4 * (opc / 2) + size
    if 4 < scale then none else some (if opc % 2 = 1 then .loadV else .storeV, scale)
  else match opc with
    | 0b00 => some (.store, size)
    | 0b01 => some (.load, size)
    | 0b10 => some (if size = 3 then .prefetch else .loadSigned 64, size)
    | _ => if 2 ≤ size then none else some (.loadSigned 32, size)

/-- The transfer of a pair, by the fields `opc`, `V` and `L`. -/
def decodePair (opc V L : Nat) : Option (Transfer × Nat) :=
  if opc = 0b11 then none
  else if V = 1 then some (if L = 1 then .loadV else .storeV, 2 + opc)
  else if opc = 0b01 then if L = 1 then some (.loadSigned 64, 2) else none
  else some (if L = 1 then .load else .store, 2 + opc / 2)

/-- The transfer of a literal, by the fields `opc` and `V`. -/
def decodeLiteral (opc V : Nat) : Option (Transfer × Nat) :=
  if V = 1 then if opc = 0b11 then none else some (.loadV, 2 + opc)
  else match opc with
    | 0b00 => some (.load, 2)
    | 0b01 => some (.load, 3)
    | 0b10 => some (.loadSigned 64, 2)
    | _ => some (.prefetch, 0)

end Guest
end Rustarmic
