import Mathlib.Logic.Function.Basic
import ArpgServer.Library.Proc
import ArpgServer.Model.Protocol

/-!
# The state of the server

The tables of `MyleftServer.h` and `hash.h`. A client record is found by its address, as
the pointers of the source do; `heap a = none` means that no record is allocated there.
The table key of a hash item is the address of the record whose `username` it points to.
`sent` collects the calls of `send_message` in order.
-/

namespace ArpgServer

/-- The address of a client record. -/
abbrev Addr := Nat

/-- `FD_STATE_NONE`, `FD_STATE_WAIT` and `FD_STATE_SUCCESS`. -/
inductive FdState where
  | none | wait | success
  deriving DecidableEq

/-- The record `clients`. Its field `level` is never used. -/
structure Client where
  fd : Nat
  roomid : Int
  state : FdState
  type : Int
  anonymous : Int
  keepalivetime : Int
  username : CharArray 64
  character : CharArray 32
  doing : CharArray 24
  direction : Int
  x : Int
  y : Int

structure Room where
  enable : Int
  anonymous : Int
  visable : Int
  num : Int
  name : Option Bytes
  rClient : List Addr

/-- The record `hash_item`; its link is the order of the chain. -/
structure HashItem where
  key : Addr
  data : Nat
  deriving DecidableEq

structure State where
  fdClients : Nat → Option Addr
  heap : Addr → Option Client
  rooms : Nat → Room
  hashSize : Nat
  hashTable : Nat → List HashItem
  mytimestamp : Int
  sent : List Send

/-- The three texts of a client record. -/
inductive TextField where
  | username | character | doing
  deriving DecidableEq

/-- A local pointer that may never have been assigned. -/
inductive LocalPtr where
  | null
  | text (b : Bytes)
  | wild

namespace State

def setClient (s : State) (p : Addr) (c : Client) : State :=
  { s with heap := Function.update s.heap p (some c) }

def setRoom (s : State) (r : Nat) (room : Room) : State :=
  { s with rooms := Function.update s.rooms r room }

def setBucket (s : State) (i : Nat) (chain : List HashItem) : State :=
  { s with hashTable := Function.update s.hashTable i chain }

/-- `rooms[i]`, defined inside the table only. -/
def room? (s : State) (i : Int) : Option Room :=
  if 0 ≤ i ∧ i < maxRooms then some (s.rooms i.toNat) else none

/-- Several calls of `send_message`. -/
def post (s : State) (l : List Send) : State := { s with sent := s.sent ++ l }

def sendMessage (s : State) (fd : Nat) (n : Notice) : State := s.post [⟨fd, [n]⟩]

@[simp] theorem post_fdClients (s : State) (l : List Send) :
    (s.post l).fdClients = s.fdClients := rfl
@[simp] theorem post_heap (s : State) (l : List Send) : (s.post l).heap = s.heap := rfl
@[simp] theorem post_rooms (s : State) (l : List Send) : (s.post l).rooms = s.rooms := rfl
@[simp] theorem post_hashSize (s : State) (l : List Send) : (s.post l).hashSize = s.hashSize := rfl
@[simp] theorem post_hashTable (s : State) (l : List Send) :
    (s.post l).hashTable = s.hashTable := rfl
@[simp] theorem post_mytimestamp (s : State) (l : List Send) :
    (s.post l).mytimestamp = s.mytimestamp := rfl
@[simp] theorem post_sent (s : State) (l : List Send) : (s.post l).sent = s.sent ++ l := rfl

@[simp] theorem post_nil (s : State) : s.post [] = s := by simp [post]

@[simp] theorem post_post (s : State) (l l' : List Send) :
    (s.post l).post l' = s.post (l ++ l') := by
  simp [post]

@[simp] theorem setClient_fdClients (s : State) (p : Addr) (c : Client) :
    (s.setClient p c).fdClients = s.fdClients := rfl
@[simp] theorem setClient_heap (s : State) (p : Addr) (c : Client) :
    (s.setClient p c).heap = Function.update s.heap p (some c) := rfl
@[simp] theorem setClient_rooms (s : State) (p : Addr) (c : Client) :
    (s.setClient p c).rooms = s.rooms := rfl
@[simp] theorem setClient_hashSize (s : State) (p : Addr) (c : Client) :
    (s.setClient p c).hashSize = s.hashSize := rfl
@[simp] theorem setClient_hashTable (s : State) (p : Addr) (c : Client) :
    (s.setClient p c).hashTable = s.hashTable := rfl
@[simp] theorem setClient_mytimestamp (s : State) (p : Addr) (c : Client) :
    (s.setClient p c).mytimestamp = s.mytimestamp := rfl
@[simp] theorem setClient_sent (s : State) (p : Addr) (c : Client) :
    (s.setClient p c).sent = s.sent := rfl

@[simp] theorem setRoom_fdClients (s : State) (r : Nat) (room : Room) :
    (s.setRoom r room).fdClients = s.fdClients := rfl
@[simp] theorem setRoom_heap (s : State) (r : Nat) (room : Room) :
    (s.setRoom r room).heap = s.heap := rfl
@[simp] theorem setRoom_rooms (s : State) (r : Nat) (room : Room) :
    (s.setRoom r room).rooms = Function.update s.rooms r room := rfl
@[simp] theorem setRoom_hashSize (s : State) (r : Nat) (room : Room) :
    (s.setRoom r room).hashSize = s.hashSize := rfl
@[simp] theorem setRoom_hashTable (s : State) (r : Nat) (room : Room) :
    (s.setRoom r room).hashTable = s.hashTable := rfl
@[simp] theorem setRoom_mytimestamp (s : State) (r : Nat) (room : Room) :
    (s.setRoom r room).mytimestamp = s.mytimestamp := rfl
@[simp] theorem setRoom_sent (s : State) (r : Nat) (room : Room) :
    (s.setRoom r room).sent = s.sent := rfl

@[simp] theorem setBucket_fdClients (s : State) (i : Nat) (l : List HashItem) :
    (s.setBucket i l).fdClients = s.fdClients := rfl
@[simp] theorem setBucket_heap (s : State) (i : Nat) (l : List HashItem) :
    (s.setBucket i l).heap = s.heap := rfl
@[simp] theorem setBucket_rooms (s : State) (i : Nat) (l : List HashItem) :
    (s.setBucket i l).rooms = s.rooms := rfl
@[simp] theorem setBucket_hashSize (s : State) (i : Nat) (l : List HashItem) :
    (s.setBucket i l).hashSize = s.hashSize := rfl
@[simp] theorem setBucket_hashTable (s : State) (i : Nat) (l : List HashItem) :
    (s.setBucket i l).hashTable = Function.update s.hashTable i l := rfl
@[simp] theorem setBucket_sent (s : State) (i : Nat) (l : List HashItem) :
    (s.setBucket i l).sent = s.sent := rfl

theorem room?_eq_some {s : State} {i : Int} {room : Room} :
    s.room? i = some room ↔ 0 ≤ i ∧ i < maxRooms ∧ s.rooms i.toNat = room := by
  unfold room?
  split
  · rename_i h
    simp [h]
  · rename_i h
    simp only [reduceCtorEq, false_iff]
    exact fun h' => h ⟨h'.1, h'.2.1⟩

theorem room?_natCast {s : State} {r : Nat} (hr : r < maxRooms) :
    s.room? r = some (s.rooms r) :=
  room?_eq_some.mpr ⟨by omega, by omega, rfl⟩

end State

end ArpgServer
