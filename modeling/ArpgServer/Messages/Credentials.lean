import ArpgServer.Effects.Steps

/-!
# Who may log in

A login is meant to succeed for a guest, for a known name with its password, and for a name
signed with the key of an account. The signature is compared with a buffer that is filled
only when a key was found, and the key is looked up among all globals of a Lua state; these
are the two ways past the check.
-/

namespace ArpgServer

open CText

variable {lookup : Lookup} {env : Env} {s s' : State} {p q : Addr} {c d : Client} {fd : Nat}
  {e : Event} {now : Int}

/-- The text a signature is made of. -/
def signedText (key username timestampChar : Bytes) : Bytes :=
  key.take 18 ++ username ++ timestampChar

/-- A login that reaches the signature check in time. -/
structure Signed (now : Int) (e : Event) (username sign account timestampChar : Bytes) : Prop where
  guest : e.isAnonymous = false
  username : e.attr .username = some username
  password : e.attr .password = none
  sign : e.attr .sign = some sign
  account : e.attr .account = some account
  timestamp : e.attr .timestamp = some timestampChar
  nonzero : atol timestampChar ≠ 0
  recent : 0 ≤ now - atol timestampChar ∧ now - atol timestampChar < 60

section
variable {username sign account timestampChar : Bytes}
  (hcrypt : ∀ key salt r, env.crypt key salt = some r → 0 ∉ r)
include hcrypt

end

/-- The accounts of the shipped `conf/account.lua`. -/
def shippedAccounts (account : Bytes) : Option LuaValue :=
  if account = ofString "myleft" then some (.string (ofString "myleft200011"))
  else if account = ofString "test" then some (.string (ofString "test"))
  else none

end ArpgServer
