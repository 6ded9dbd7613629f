import ArpgServer.Effects.Sections
import ArpgServer.Messages.Authority
import ArpgServer.Messages.Supplied
import ArpgServer.Names.Delivery

/-!
# Names of guests

A guest is named after the hour, the minute and the second of its login, one behind the other
and without leading zeros. The login then displaces the session that the name table has under
this name. So it leaves all other sessions alone unless that session is authenticated. Two times
of day have one name when a digit of one can be read as part of its neighbour.
-/

namespace ArpgServer

open CText

variable {env : Env} {s s' t : State} {p q : Addr} {c d : Client} {e : Event} {task : Task}
  {lookup : Lookup} {fd : Nat}

/-! ## Other sessions -/

/-- The state, the type and the room of every other client are as before. -/
structure Undisturbed (s s' : State) (p : Addr) : Prop where
  record : ∀ q d, q ≠ p → s.heap q = some d → ∃ d', s'.heap q = some d' ∧
    d'.state = d.state ∧ d'.type = d.type ∧ d'.roomid = d.roomid
  member : ∀ r q, q ≠ p → (q ∈ (s'.rooms r).rClient ↔ q ∈ (s.rooms r).rClient)

theorem Undisturbed.trans (h : Undisturbed s t p) (h' : Undisturbed t s' p) :
    Undisturbed s s' p where
  record q d hq hd := by
    obtain ⟨d₁, hd₁, hstate₁, htype₁, hroom₁⟩ := h.record q d hq hd
    obtain ⟨d₂, hd₂, hstate₂, htype₂, hroom₂⟩ := h'.record q d₁ hq hd₁
    exact ⟨d₂, hd₂, hstate₂.trans hstate₁, htype₂.trans htype₁, hroom₂.trans hroom₁⟩
  member r q hq := (h'.member r q hq).trans (h.member r q hq)

/-- A change of the client's own record. -/
theorem Undisturbed.of_update (hheap : ∀ q, q ≠ p → s'.heap q = s.heap q)
    (hrooms : s'.rooms = s.rooms) : Undisturbed s s' p where
  record q d hq hd := ⟨d, by rw [hheap q hq, hd], rfl, rfl, rfl⟩
  member r q _ := by rw [hrooms]

/-- The item of a rival is not the client's own. -/
theorem LeadsTo.ne {name : Bytes} (hs : Sound s) (hp : s.heap p = some c)
    (h : LeadsTo env (s.setClient p d) name c.fd q) : q ≠ p := by
  obtain ⟨before, item, after, -, -, -, hne, hq⟩ := h
  rintro rfl
  obtain ⟨c', hc', hfd⟩ := hs.registered _ _ hq
  obtain rfl : c = c' := Option.some.inj (hp.symm.trans hc')
  exact hne hfd.symm

/-- A rival that is authenticated waits afterwards. -/
theorem RivalEffect.displaced {x : Client} (h : RivalEffect env (some q) s t)
    (hq : s.heap q = some x) (hx : x.state = .success) :
    ∃ y, t.heap q = some y ∧ y.state = .wait := by
  rcases h with ⟨hnone, -⟩ | ⟨q', d', hsome, hq', ⟨hwait, -⟩ | ⟨-, l, -, rfl⟩⟩
  · cases hnone
  · cases hsome
    obtain rfl : x = d' := Option.some.inj (hq.symm.trans hq')
    exact absurd hx hwait
  · cases hsome
    exact ⟨{ d' with roomid := -1, state := .wait }, Function.update_self .., rfl⟩

end ArpgServer
