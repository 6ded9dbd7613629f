import ArpgServer.Model.Env

/-!
# The name table (`hash.c`)

Chains of items under a hash of the name. The key of an item is the `username` of a client
record, so it is read when it is compared.
-/

namespace ArpgServer

/-- One byte as the `char` that is added to the hash: it is signed. -/
def charToUInt32 (b : UInt8) : UInt32 :=
  if b < 128 then b.toUInt32 else b.toUInt32 + 0xFFFFFF00

def bkdrHash (str : Bytes) : Nat :=
  (str.foldl (fun (hash : UInt32) b => hash * 131 + charToUInt32 b) 0 &&& 0x7FFFFFFF).toNat

/-- The bucket of a name. -/
def State.bucketOf (s : State) (key : Bytes) : Nat := bkdrHash key % s.hashSize

/-- `strcmp (item->key, key) == 0`. -/
def keyIs (env : Env) (s : State) (item : HashItem) (key : Bytes) : Option Bool :=
  match s.heap item.key with
  | none => (env.stale item.key).map (· == key)
  | some c => c.username.strcmp (env.overrun item.key .username) key

/-- The `username` of a record, read as a text. -/
def nameAt (env : Env) (s : State) (p : Addr) : Option Bytes :=
  match s.heap p with
  | none => env.stale p
  | some c => c.username.read (env.overrun p .username)

/-- The chain from its first item with the key on. -/
def chainFrom (env : Env) (s : State) (key : Bytes) : List HashItem → Option (List HashItem)
  | [] => some []
  | item :: rest =>
    (keyIs env s item key).bind fun same =>
      if same then some (item :: rest) else chainFrom env s key rest

/-- `hash_search`: the found item with what follows it in its chain. -/
def hashSearch (env : Env) (s : State) (key : Bytes) : Option (List HashItem) :=
  if 0 < s.hashSize then chainFrom env s key (s.hashTable (s.bucketOf key)) else some []

/-- `hash_add`: the item goes to the end of its chain. -/
def hashAdd (env : Env) (s : State) (item : HashItem) : Option State :=
  if s.hashSize = 0 then none
  else
    (nameAt env s item.key).map fun key =>
      s.setBucket (s.bucketOf key) (s.hashTable (s.bucketOf key) ++ [item])

/-- The chain without its first item of the key and descriptor. -/
def chainDel (env : Env) (s : State) (key : Bytes) (fd : Nat) :
    List HashItem → Option (List HashItem)
  | [] => some []
  | item :: rest =>
    (keyIs env s item key).bind fun same =>
      if same ∧ item.data = fd then some rest
      else (chainDel env s key fd rest).map (item :: ·)

/-- `hash_del`. -/
def hashDel (env : Env) (s : State) (key : Bytes) (fd : Nat) : Option State :=
  if s.hashSize = 0 then none
  else
    (chainDel env s key fd (s.hashTable (s.bucketOf key))).map fun chain =>
      s.setBucket (s.bucketOf key) chain

/-- The walk of `get_fdnode_byname` along the chain: the descriptor of the first item of the
name that is not `ufd`. -/
def fdByName (env : Env) (s : State) (uname : Bytes) (ufd : Int) :
    List HashItem → Option (Option Nat)
  | [] => some none
  | item :: rest =>
    (keyIs env s item uname).bind fun same =>
      if same ∧ (ufd < 0 ∨ (item.data : Int) ≠ ufd) then some (some item.data)
      else fdByName env s uname ufd rest

/-- The name lookup of `function.c`. -/
def getFdnodeByname (env : Env) (s : State) (uname : Bytes) (ufd : Int) : Option (Option Addr) :=
  (hashSearch env s uname).bind fun found =>
    (fdByName env s uname ufd found).map fun fd => fd.bind s.fdClients

/-! ## Only the records are read -/

variable {env : Env} {s t : State} {key : Bytes}

theorem keyIs_congr (h : t.heap = s.heap) (item : HashItem) :
    keyIs env t item key = keyIs env s item key := by
  unfold keyIs
  rw [h]

/-! The walks along a chain read the environment and the state only through `keyIs`. -/

theorem chainDel_of_keyIs {env' : Env}
    (h : ∀ item, keyIs env' t item key = keyIs env s item key) (fd : Nat)
    (chain : List HashItem) : chainDel env' t key fd chain = chainDel env s key fd chain := by
  induction chain with
  | nil => rfl
  | cons item rest ih => simp only [chainDel, h, ih]

theorem chainFrom_of_keyIs {env' : Env}
    (h : ∀ item, keyIs env' t item key = keyIs env s item key) (l : List HashItem) :
    chainFrom env' t key l = chainFrom env s key l := by
  induction l with
  | nil => rfl
  | cons item rest ih => simp only [chainFrom, h, ih]

theorem fdByName_of_keyIs {env' : Env}
    (h : ∀ item, keyIs env' t item key = keyIs env s item key) (ufd : Int) (l : List HashItem) :
    fdByName env' t key ufd l = fdByName env s key ufd l := by
  induction l with
  | nil => rfl
  | cons item rest ih => simp only [fdByName, h, ih]

theorem chainDel_congr (h : t.heap = s.heap) (fd : Nat) (chain : List HashItem) :
    chainDel env t key fd chain = chainDel env s key fd chain :=
  chainDel_of_keyIs (keyIs_congr h) fd chain

theorem chainFrom_congr (h : t.heap = s.heap) (key : Bytes) (l : List HashItem) :
    chainFrom env t key l = chainFrom env s key l :=
  chainFrom_of_keyIs (keyIs_congr h) l

theorem fdByName_congr (h : t.heap = s.heap) (uname : Bytes) (ufd : Int) (l : List HashItem) :
    fdByName env t uname ufd l = fdByName env s uname ufd l :=
  fdByName_of_keyIs (keyIs_congr h) ufd l

theorem getFdnodeByname_congr (h : t.heap = s.heap) (hfd : t.fdClients = s.fdClients)
    (hsize : t.hashSize = s.hashSize) (htable : t.hashTable = s.hashTable) (uname : Bytes)
    (ufd : Int) : getFdnodeByname env t uname ufd = getFdnodeByname env s uname ufd := by
  have hbucket : t.bucketOf uname = s.bucketOf uname := by
    rw [State.bucketOf, State.bucketOf, hsize]
  simp only [getFdnodeByname, hashSearch, hsize, htable, hbucket, hfd, chainFrom_congr h,
    fdByName_congr h]

theorem hashDel_eq_some {fd : Nat} (h : hashDel env s key fd = some t) :
    ∃ chain, chainDel env s key fd (s.hashTable (s.bucketOf key)) = some chain ∧
      t = s.setBucket (s.bucketOf key) chain := by
  unfold hashDel at h
  split at h
  · cases h
  · obtain ⟨chain, hchain, rfl⟩ := Option.map_eq_some_iff.mp h
    exact ⟨chain, hchain, rfl⟩

theorem hashAdd_eq_some {item : HashItem} (h : hashAdd env s item = some t) :
    ∃ name, nameAt env s item.key = some name ∧
      t = s.setBucket (s.bucketOf name) (s.hashTable (s.bucketOf name) ++ [item]) := by
  unfold hashAdd at h
  split at h
  · cases h
  · obtain ⟨name, hname, rfl⟩ := Option.map_eq_some_iff.mp h
    exact ⟨name, hname, rfl⟩

end ArpgServer
