import Tvntd.Ctype.Dhash
import Tvntd.Cpptype.Object

/-! # `DHashObj`

One table of links. An object is linked through its own `m_chain`, placed by its
64-bit key or by its string key, or through a separate `ODlink` that refers to
it, placed by its 64-bit key. Each operation passes its hash function to the
table; the table itself stores the string hash and rehashes every link by it.

Every link starts with its `dlist_t` and is followed by the pointer `ol_ptr` to
its object. Objects and separate links are numbers. The comparison of 64-bit
keys is virtual and a parameter.
-/

namespace Tvntd

open Function

abbrev Obj := Nat

/-- The address of a link: `m_chain` of an object, a separate `ODlink`, or `m_chain` of an
`ObjKeyFind` on the stack of a lookup. -/
inductive Link where
  | chain (obj : Obj)
  | dlink (p : Nat)
  | seed64 (key : Key64)
  | seedStr (key : CStr)
  deriving DecidableEq

/-- The object a link refers to. -/
inductive Owner where
  | obj (obj : Obj)
  | seed64 (key : Key64)
  | seedStr (key : CStr)

/-- What the hash and compare functions read of the objects: the keys, whether `m_chain` refers
to its object, and where the separate links refer to. -/
structure ObjMem where
  objKey64 : Obj → Key64
  objKeystr : Obj → CStr
  mChain : Obj → Bool
  olPtr : Nat → Option Obj

namespace ObjMem

variable (mem : ObjMem)

/-- `Object::obj_cptr` -/
def objCptr : Link → Option Owner
  | .chain obj => if mem.mChain obj then some (.obj obj) else none
  | .dlink p => (mem.olPtr p).map .obj
  | .seed64 key => some (.seed64 key)
  | .seedStr key => some (.seedStr key)

/-- `obj->m_chain.obj_ptr() == obj`; an `ObjKeyFind` refers to itself from its construction. -/
def chained : Owner → Bool
  | .obj obj => mem.mChain obj
  | .seed64 _ | .seedStr _ => true

/-- The object of a link and the two assertions that every hash and compare function by key
makes about it. A link that is `m_chain` of its object meets the second through its own pointer. -/
def linked (elm : Link) : Option Owner :=
  (mem.objCptr elm).bind fun obj => if mem.chained obj then some obj else none

def key64 : Owner → Key64
  | .obj obj => mem.objKey64 obj
  | .seed64 key => key
  | .seedStr _ => 0

def keystr : Owner → CStr
  | .obj obj => mem.objKeystr obj
  | .seed64 _ => ⟨[], CStr.ended_nil⟩
  | .seedStr key => key

end ObjMem

/-! ## The plugin functions -/

def dhHashKey64 (mem : ObjMem) : HashFn Link := fun bkSize elm =>
  (mem.linked elm).map fun obj => objHash64 bkSize (mem.key64 obj)

def dhHashCmpKey64 (cmp64 : Key64 → Key64 → Int) (mem : ObjMem) : CmpFn Link := fun elm1 elm2 =>
  (mem.linked elm1).bind fun obj =>
    (mem.linked elm2).map fun cmp => cmp64 (mem.key64 obj) (mem.key64 cmp)

def dhHashKeystr (mem : ObjMem) : HashFn Link := fun bkSize elm =>
  (mem.linked elm).map fun obj => objHashStrfn bkSize (mem.keystr obj).bytes

def dhHashCmpKeystr (mem : ObjMem) : CmpFn Link := fun elm1 elm2 =>
  (mem.linked elm1).bind fun obj =>
    (mem.linked elm2).map fun cmp => strcmp (mem.keystr obj).bytes (mem.keystr cmp).bytes

/-- `dh_hash_chain`. `obj_hash_dlink` gets `m_chain` of the object and follows its pointer. -/
def dhHashChain (mem : ObjMem) : HashFn Link := fun bkSize elm =>
  (mem.objCptr elm).bind fun obj =>
    if mem.chained obj then some (objHash64 bkSize (mem.key64 obj)) else none

/-- `dh_hash_cmp_chain`. The probe is a separate link; only its object is used. -/
def dhHashCmpChain (cmp64 : Key64 → Key64 → Int) (mem : ObjMem) : CmpFn Link := fun elm1 elm2 =>
  (mem.linked elm1).bind fun obj =>
    (mem.objCptr elm2).map fun cmp => cmp64 (mem.key64 obj) (mem.key64 cmp)

/-- The functions `dhash_init` gets. -/
def tableFn (mem : ObjMem) : DhashFn Link where
  dhHashFn := dhHashKeystr mem
  dhCmpFn := dhHashCmpKeystr mem

/-! ## Operations -/

/-- A table and the objects its links belong to. -/
structure DHashObj where
  mem : ObjMem
  mTab : Dhash Link

namespace DHashObj

/-- `m_chain.ol_ptr = obj` -/
def hold (mem : ObjMem) (obj : Obj) : ObjMem :=
  { mem with mChain := update mem.mChain obj true }

def insertKey64 (self : DHashObj) (obj : Obj) : Option (Nat × DHashObj) :=
  if self.mem.mChain obj then none
  else
    let mem := hold self.mem obj
    (dhashInsertElm self.mTab (.chain obj) (dhHashKey64 mem)).map fun result =>
      (result.1, ⟨mem, result.2⟩)

def insertKeystr (self : DHashObj) (obj : Obj) : Option (Nat × DHashObj) :=
  if self.mem.mChain obj then none
  else
    let mem := hold self.mem obj
    (dhashInsert (tableFn mem) self.mTab (.chain obj)).map fun result =>
      (result.1, ⟨mem, result.2⟩)

def insertChain (self : DHashObj) (obj : Obj) (p : Nat) : Option (Nat × DHashObj) :=
  if self.mem.olPtr p = none then
    let mem := { self.mem with olPtr := update self.mem.olPtr p (some obj) }
    (dhashInsertElm self.mTab (.dlink p) (dhHashChain mem)).map fun result =>
      (result.1, ⟨mem, result.2⟩)
  else none

def removeObj (self : DHashObj) (obj : Obj) : Option DHashObj :=
  if self.mem.mChain obj then
    some ⟨{ self.mem with mChain := update self.mem.mChain obj false },
      dhashTakeoutElm self.mTab (.chain obj)⟩
  else none

def removeChain (self : DHashObj) (obj : Obj) (p : Nat) : Option DHashObj :=
  if self.mem.olPtr p = some obj then
    some ⟨{ self.mem with olPtr := update self.mem.olPtr p none },
      dhashTakeoutElm self.mTab (.dlink p)⟩
  else none

/-- `ODlink::obj_ptr` of the link a lookup found. -/
def objPtr (mem : ObjMem) (found : Option Link) : Option Obj :=
  found.bind fun link =>
    match mem.objCptr link with
    | some (.obj obj) => some obj
    | _ => none

/-- The common part of the three lookups. -/
def lookupElm (self : DHashObj) (elm : Link) (hashFn : HashFn Link) (hashCmp : CmpFn Link) :
    Option (Option Obj × DHashObj) :=
  (dhashFindElm (tableFn self.mem) self.mTab elm hashFn hashCmp).map fun result =>
    (objPtr self.mem result.1, ⟨self.mem, result.2⟩)

def lookup64 (cmp64 : Key64 → Key64 → Int) (self : DHashObj) (key : Key64) :
    Option (Option Obj × DHashObj) :=
  lookupElm self (.seed64 key) (dhHashKey64 self.mem) (dhHashCmpKey64 cmp64 self.mem)

def lookupStr (self : DHashObj) (key : CStr) : Option (Option Obj × DHashObj) :=
  lookupElm self (.seedStr key) (dhHashKeystr self.mem) (dhHashCmpKeystr self.mem)

def lookupChain (cmp64 : Key64 → Key64 → Int) (self : DHashObj) (p : Nat) :
    Option (Option Obj × DHashObj) :=
  lookupElm self (.dlink p) (dhHashChain self.mem) (dhHashCmpChain cmp64 self.mem)

end DHashObj

end Tvntd
