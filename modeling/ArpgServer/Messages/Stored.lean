import ArpgServer.Messages.Guests
import ArpgServer.Messages.Refusals

/-!
# The texts that are stored

A history keeps, for every client, the text that was stored last in each of its three fields.
A law relates an array to the text stored in it. A law that every copy establishes holds of all
records, as only logins and the handlers of the two texts write them.
-/

namespace ArpgServer

open CText

variable {lookup : Lookup} {env : Env} {s s' t : State} {p q : Addr} {c d w : Client} {fd : Nat}
  {e : Event} {a : Action} {account username old : Bytes} {texts : Addr → TextField → Bytes}

/-- A login through the password branch, with the right password. -/
def ByPassword (env : Env) (e : Event) : Prop :=
  e.isAnonymous = false ∧ ∃ username password stored salt, e.attr .username = some username ∧
    e.attr .password = some password ∧ getPassword env username = some (some (stored, salt)) ∧
    md5Hex env (md5Hex env password ++ salt) = stored

/-! ## The texts that are stored -/

def AuthOutcome.isPassed : AuthOutcome → Bool
  | .refused .. => false
  | .passed _ => true

/-- The text a login stores as the name. A signed login stores it before its checks. -/
def Event.storedName (e : Event) (env : Env) (c : Client) : Option Bytes :=
  if e.isAnonymous then some (guestName env.now)
  else
    match e.attr .username, e.attr .password with
    | some username, some password =>
      if (authPassword env c username password).any AuthOutcome.isPassed then some username
      else none
    | _, _ =>
      match e.attr .username, e.attr .sign, e.attr .account, e.attr .timestamp with
      | some username, some _, some account, some timestampChar =>
        if atol timestampChar ≠ 0 then
          some (if account ≠ localAccount then account ++ username else username)
        else none
      | _, _, _, _ => none

/-- The texts that are stored last after an event of a client. -/
def Event.stores (e : Event) (env : Env) (c : Client) (old : TextField → Bytes) :
    TextField → Bytes
  | .username =>
    if e.evType = some evTypeAuth ∧ c.state ≠ .success then
      (e.storedName env c).getD (old .username)
    else old .username
  | .character =>
    if (e.evType = some evTypeAuth ∧ c.state ≠ .success ∧
          (authCredentials env env.now c e).any AuthOutcome.isPassed) ∨
        (e.evType = some evTypeChangeCharacter ∧ c.state = .success) then
      (e.attr .character).getD (old .character)
    else old .character
  | .doing =>
    if e.evType = some evTypeDoing ∧ c.state = .success then (e.attr .doing).getD (old .doing)
    else old .doing

/-- The texts that were stored last, for every client. A new record holds empty texts. -/
def noteTexts (env : Env) (s : State) (a : Action) (_ : State)
    (texts : Addr → TextField → Bytes) (q : Addr) : TextField → Bytes :=
  match a with
  | .accept _ node => if q = node then fun _ => [] else texts q
  | .task fd recvBits data =>
    if s.fdClients fd = some q then
      match s.heap q, Task.decode env ⟨fd, q, recvBits, data⟩ with
      | some c, .event e => e.stores env c (texts q)
      | _, _ => texts q
    else texts q
  | _ => texts q

/-- The events the parser makes hold C texts. -/
def Env.ParsesTexts (env : Env) : Prop := ∀ text, (env.ezxmlParseStr text).IsText

theorem Task.decode_isText {recvBits : Int} {data : Bytes} (henv : env.ParsesTexts)
    (h : Task.decode env ⟨fd, p, recvBits, data⟩ = .event e) : e.IsText := by
  unfold Task.decode at h
  split at h
  · split at h
    · cases h
    · rename_i text _
      split at h
      · cases h
      split at h
      · cases h
      · obtain rfl := Decoded.event.inj h
        exact henv text
  · cases h

/-! ## Laws -/

/-- What each array has to do with the text stored in it last. -/
structure FieldLaw where
  username : CharArray 64 → Bytes → Prop
  character : CharArray 32 → Bytes → Prop
  doing : CharArray 24 → Bytes → Prop

structure Client.Obeys (c : Client) (law : FieldLaw) (texts : TextField → Bytes) : Prop where
  username : law.username c.username (texts .username)
  character : law.character c.character (texts .character)
  doing : law.doing c.doing (texts .doing)

/-- The copies that an event makes establish a law. -/
structure FieldLaw.Stores (law : FieldLaw) (env : Env) (c : Client) (e : Event) : Prop where
  guest : law.username (c.username.snprintf (guestName env.now) 64 (by decide) (by decide))
    (guestName env.now)
  password : e.evType = some evTypeAuth → c.state ≠ .success → ByPassword env e →
    ∀ username, e.attr .username = some username →
      law.username (c.username.strncpy username 64 (by decide)) username
  signature : e.evType = some evTypeAuth → c.state ≠ .success →
    ∀ account username name, BySignature e account username →
      signedName c account username = some name →
      law.username name (if account ≠ localAccount then account ++ username else username)
  login : e.evType = some evTypeAuth → c.state ≠ .success →
    (authCredentials env env.now c e).any AuthOutcome.isPassed →
    ∀ character, e.attr .character = some character →
      law.character ((CharArray.zero 32).strncpy character 32 (by decide)) character
  character : e.evType = some evTypeChangeCharacter → c.state = .success →
    ∀ character, e.attr .character = some character →
      law.character (c.character.strncpy character 32 (by decide)) character
  doing : e.evType = some evTypeDoing → c.state = .success →
    ∀ doing, e.attr .doing = some doing →
      law.doing ((CharArray.zero 24).strncpy doing 24 (by decide)) doing

variable {law : FieldLaw}

theorem Client.Obeys.congr {texts : TextField → Bytes} (h : c.Obeys law texts)
    (hself : c.SameSelf d) : d.Obeys law texts :=
  ⟨hself.username ▸ h.username, hself.character ▸ h.character, hself.doing ▸ h.doing⟩

/-! ## The name -/

theorem authPassword_stored {P : CharArray 64 → Bytes → Prop} {password : Bytes}
    {out : AuthOutcome} (hc : P c.username old)
    (hname : ∀ stored salt, getPassword env username = some (some (stored, salt)) →
      md5Hex env (md5Hex env password ++ salt) = stored →
      P (c.username.strncpy username 64 (by decide)) username)
    (h : authPassword env c username password = some out) :
    P out.client.username ((if (authPassword env c username password).any
      AuthOutcome.isPassed then some username else none).getD old) := by
  rw [h]
  rcases authPassword_cases h with ⟨-, rfl⟩ | ⟨stored, salt, hrow, -, rfl⟩
  · exact hc
  · split
    · rename_i hmd5
      exact hname stored salt hrow hmd5
    · exact hc

/-- Whatever a login comes to, its name obeys the law. -/
theorem authCredentials_stored {out : AuthOutcome} (ht : e.evType = some evTypeAuth)
    (hst : c.state ≠ .success) (hc : law.username c.username old) (hlaw : law.Stores env c e)
    (h : authCredentials env env.now c e = some out) :
    law.username out.client.username ((e.storedName env c).getD old) := by
  unfold authCredentials at h
  unfold Event.storedName
  by_cases hguest : e.isAnonymous = true
  · rw [if_pos hguest] at h ⊢
    cases h
    exact hlaw.guest
  rw [if_neg hguest] at h ⊢
  have hnot : e.isAnonymous = false := by simpa using hguest
  cases hu : e.attr .username with
  | none =>
    simp only [hu] at h
    cases h
    exact hc
  | some username =>
    cases hpw : e.attr .password with
    | some password =>
      simp only [hu, hpw] at h
      refine authPassword_stored hc (fun stored salt hrow hmd5 => ?_) h
      exact hlaw.password ht hst ⟨hnot, username, password, stored, salt, hu, hpw, hrow, hmd5⟩
        username hu
    | none =>
      cases hsign : e.attr .sign with
      | none =>
        simp only [hu, hpw, hsign] at h
        cases h
        exact hc
      | some sign =>
        cases haccount : e.attr .account with
        | none =>
          simp only [hu, hpw, hsign, haccount] at h
          cases h
          exact hc
        | some account =>
          cases htime : e.attr .timestamp with
          | none =>
            simp only [hu, hpw, hsign, haccount, htime] at h
            cases h
            exact hc
          | some timestampChar =>
            simp only [hu, hpw, hsign, haccount, htime] at h ⊢
            by_cases hzero : atol timestampChar ≠ 0
            · rw [if_pos hzero] at h ⊢
              have hsig : BySignature e account username :=
                ⟨hnot, hu, hpw, ⟨sign, hsign⟩, haccount, timestampChar, htime, hzero⟩
              obtain ⟨name, hname, hout⟩ := authSignature_client h
              rw [hout]
              exact hlaw.signature ht hst account username name hsig hname
            · rw [if_neg hzero] at h ⊢
              cases h
              exact hc

theorem authCredentials_texts {now : Int} {out : AuthOutcome}
    (h : authCredentials env now c e = some out) :
    out.client.character = c.character ∧ out.client.doing = c.doing := by
  obtain ⟨anonymous, name, hout⟩ := authCredentials_renamed h
  rw [hout]
  exact ⟨rfl, rfl⟩

/-! ## One step -/

/-- How an event writes a record of its sender. -/
inductive Wrote (env : Env) (c : Client) (e : Event) : Client → Prop where
  | refused (d : Client) (why : AuthFailure) (ht : e.evType = some evTypeAuth)
      (hc : c.state ≠ .success) (hd : authCredentials env env.now c e = some (.refused d why)) :
      Wrote env c e d
  | passed (d : Client) (ht : e.evType = some evTypeAuth) (hc : c.state ≠ .success)
      (hd : authCredentials env env.now c e = some (.passed d)) : Wrote env c e (setCharacter d e)
  | character (character : Bytes) (ht : e.evType = some evTypeChangeCharacter)
      (hc : c.state = .success) (he : e.attr .character = some character) :
      Wrote env c e { c with character := c.character.strncpy character 32 (by decide) }
  | doing (doing : Bytes) (ht : e.evType = some evTypeDoing) (hc : c.state = .success)
      (he : e.attr .doing = some doing) :
      Wrote env c e { c with doing := (CharArray.zero 24).strncpy doing 24 (by decide) }

theorem stores_eq_old (h : e.StoresNothing c) (env : Env) (old : TextField → Bytes) :
    e.stores env c old = old := by
  ext field : 1
  cases field with
  | username =>
    simp only [Event.stores]
    rw [if_neg fun h' => h'.2 (h.auth h'.1)]
  | character =>
    simp only [Event.stores]
    split
    · rename_i hw
      rcases hw with ⟨ht, hc, -⟩ | ⟨ht, hc⟩
      · exact absurd (h.auth ht) hc
      · rw [h.character ht hc, Option.getD_none]
    · rfl
  | doing =>
    simp only [Event.stores]
    split
    · rename_i hw
      rw [h.doing hw.1 hw.2, Option.getD_none]
    · rfl

/-- A login stores a name, and a character when it passes. -/
theorem stores_auth {out : AuthOutcome} (ht : e.evType = some evTypeAuth)
    (hc : c.state ≠ .success) (h : authCredentials env env.now c e = some out)
    (old : TextField → Bytes) :
    e.stores env c old .username = (e.storedName env c).getD (old .username) ∧
      e.stores env c old .character =
        (if out.isPassed then (e.attr .character).getD (old .character) else old .character) ∧
      e.stores env c old .doing = old .doing := by
  have hchar : evTypeAuth ≠ evTypeChangeCharacter := by decide
  have hdoing : evTypeAuth ≠ evTypeDoing := by decide
  simp [Event.stores, ht, hc, h]

theorem Wrote.obeys {old : TextField → Bytes} (hc : c.Obeys law old) (hlaw : law.Stores env c e)
    (h : Wrote env c e w) : w.Obeys law (e.stores env c old) := by
  cases h with
  | refused _ why ht hst hd =>
    obtain ⟨husername, hcharacter, hdoing⟩ := stores_auth ht hst hd old
    obtain ⟨hcharacter', hdoing'⟩ := authCredentials_texts hd
    constructor
    · rw [husername]
      exact authCredentials_stored ht hst hc.username hlaw hd
    · rw [hcharacter]
      have hkept : w.character = c.character := hcharacter'
      rw [hkept]
      exact hc.character
    · rw [hdoing]
      have hkept : w.doing = c.doing := hdoing'
      rw [hkept]
      exact hc.doing
  | passed d ht hst hd =>
    obtain ⟨husername, hcharacter, hdoing⟩ := stores_auth ht hst hd old
    obtain ⟨hcharacter', hdoing'⟩ := authCredentials_texts hd
    have hlogin := hlaw.login ht hst (by rw [hd]; rfl)
    constructor
    · rw [husername, setCharacter_username]
      exact authCredentials_stored ht hst hc.username hlaw hd
    · rw [hcharacter]
      unfold setCharacter
      cases hattr : e.attr .character with
      | none =>
        have hkept : d.character = c.character := hcharacter'
        change law.character d.character (old .character)
        rw [hkept]
        exact hc.character
      | some character => exact hlogin character hattr
    · rw [hdoing]
      have hkept : (setCharacter d e).doing = d.doing := by
        unfold setCharacter
        split <;> rfl
      have hkept' : d.doing = c.doing := hdoing'
      rw [hkept, hkept']
      exact hc.doing
  | character character ht hst hattr =>
    have hne : evTypeChangeCharacter ≠ evTypeAuth := by decide
    have hne' : evTypeChangeCharacter ≠ evTypeDoing := by decide
    have hstores : e.stores env c old = fun field =>
        if field = .character then character else old field := by
      ext field : 1
      cases field <;> simp [Event.stores, ht, hst, hattr, hne, hne']
    rw [hstores]
    exact ⟨hc.username, hlaw.character ht hst character hattr, hc.doing⟩
  | doing doing ht hst hattr =>
    have hne : evTypeDoing ≠ evTypeAuth := by decide
    have hne' : evTypeDoing ≠ evTypeChangeCharacter := by decide
    have hstores : e.stores env c old = fun field =>
        if field = .doing then doing else old field := by
      ext field : 1
      cases field <;> simp [Event.stores, ht, hst, hattr, hne, hne']
    rw [hstores]
    exact ⟨hc.username, hc.character, hlaw.doing ht hst doing hattr⟩

/-- The record of a client after an event: written by the event, or the same as before. -/
theorem EventFrame.record (hp : s.heap p = some c)
    (h : EventFrame env fd e p c (s.tick env.now) s') (hq : s'.heap q = some d) :
    (∃ w, q = p ∧ Wrote env c e w ∧ w.SameSelf d) ∨
      ∃ c', s.heap q = some c' ∧ c'.SameSelf d ∧ (q = p → e.StoresNothing c) := by
  have hset : ∀ {w x : Client}, Wrote env c e w → (s.setClient p w).heap q = some x →
      x.SameSelf d → (∃ w, q = p ∧ Wrote env c e w ∧ w.SameSelf d) ∨
        ∃ c', s.heap q = some c' ∧ c'.SameSelf d ∧ (q = p → e.StoresNothing c) := by
    intro w x hw hx hself
    rcases update_eq_some hx with ⟨rfl, rfl⟩ | ⟨hne, hx⟩
    · exact Or.inl ⟨x, rfl, hw, hself⟩
    · exact Or.inr ⟨x, hx, hself, fun h => absurd h hne⟩
  cases h with
  | kept hnot h =>
    obtain ⟨x, hx, hremains⟩ := h.record q d hq
    exact Or.inr ⟨x, hx, hremains.self, fun _ => hnot⟩
  | spoke hnot h =>
    obtain ⟨n, l, -, -, rfl⟩ := h
    exact Or.inr ⟨d, hq, .refl d, fun _ => hnot⟩
  | turnedAway hnot hc h =>
    obtain ⟨_, _, -, -, -, rfl⟩ := h.sent_only
    exact Or.inr ⟨d, hq, .refl d, fun _ => hnot⟩
  | refused w why ht hc hw h =>
    rw [h] at hq
    exact hset (.refused w why ht hc hw) hq (.refl d)
  | passed c' x name t u ht hc hpass hbefore hpt hu hjoin =>
    have hbeforeJoin : ∃ y, u.heap q = some y ∧ y.SameSelf d := by
      rcases hjoin with h | haway
      · obtain ⟨y, hy, hremains⟩ := h.record q d hq
        exact ⟨y, hy, hremains.self⟩
      · obtain ⟨_, _, -, -, -, rfl⟩ := haway.sent_only
        exact ⟨d, hq, .refl d⟩
    obtain ⟨y, hy, hyd⟩ := hbeforeJoin
    obtain ⟨w, hw, hwy⟩ := hbefore.before_login hpt hu hy
    exact hset (.passed c' ht hc hpass) hw (hwy.trans hyd)
  | character character name text l ht hc he hname htext hl h =>
    rw [h] at hq
    exact hset (.character character ht hc he) hq (.refl d)
  | doing doing name l ht hc he hname hl h =>
    rw [h] at hq
    exact hset (.doing doing ht hc he) hq (.refl d)

/-- How the record of a client comes about. -/
inductive RecordFrame (env : Env) (s : State) (a : Action) (q : Addr) (d : Client) : Prop where
  | same (c : Client) (hq : s.heap q = some c) (hself : c.SameSelf d)
      (hnot : a.StoresNothing env s q)
  | fresh (fd : Nat) (now : Int) (ha : a = .accept fd q) (hd : d = newClient fd now)
  | wrote (fd : Nat) (recvBits : Int) (data : Bytes) (c w : Client) (e : Event)
      (ha : a = .task fd recvBits data) (hfd : s.fdClients fd = some q) (hq : s.heap q = some c)
      (hdecode : Task.decode env ⟨fd, q, recvBits, data⟩ = .event e) (hw : Wrote env c e w)
      (hself : w.SameSelf d)

theorem ActFrame.record (h : ActFrame env s a s') (hq : s'.heap q = some d) :
    RecordFrame env s a q d := by
  cases h with
  | kept now hnow hnot h =>
    obtain ⟨c, hc, hremains⟩ := h.record q d hq
    exact .same c hc hremains.self (hnot q)
  | accept fd node ha hacc =>
    obtain ⟨-, rfl⟩ := acceptClient_eq_some hacc
    rcases update_eq_some hq with ⟨rfl, rfl⟩ | ⟨hne, hq⟩
    · exact .fresh fd s.mytimestamp ha rfl
    · refine .same d hq (.refl d) ⟨fun fd' h => ?_, fun _ _ _ _ _ h => ?_⟩
      · rw [ha] at h
        cases h
        exact hne rfl
      · rw [ha] at h
        cases h
  | input fd ha hin =>
    obtain ⟨p, c, hp, rfl⟩ := noteInput_eq_some hin
    have hnot : ∀ q, a.StoresNothing env s q := by
      rw [ha]
      exact .of_ne nofun nofun
    rcases update_eq_some hq with ⟨rfl, rfl⟩ | ⟨-, hq⟩
    · exact .same c hp ⟨rfl, rfl, rfl, rfl⟩ (hnot _)
    · exact .same d hq (.refl d) (hnot q)
  | event fd recvBits data p c e ha hfd hp hdecode h =>
    rcases h.record hp hq with ⟨w, rfl, hw, hself⟩ | ⟨c', hc', hself, hnot⟩
    · exact .wrote fd recvBits data c w e ha hfd hp hdecode hw hself
    · rw [ha]
      refine .same c' hc' hself (.task hfd fun x e' hqp hx hdecode' => ?_)
      rw [hp] at hx
      rw [hdecode] at hdecode'
      cases hx
      cases hdecode'
      exact hnot hqp

/-- The event of a task is noted for the client of the descriptor. -/
theorem noteTexts_event {recvBits : Int} {data : Bytes} (hfd : s.fdClients fd = some p)
    (hp : s.heap p = some c) (hdecode : Task.decode env ⟨fd, p, recvBits, data⟩ = .event e) :
    noteTexts env s (.task fd recvBits data) s' texts p = e.stores env c (texts p) := by
  simp only [noteTexts]
  rw [if_pos hfd, hp, hdecode]

theorem noteTexts_other {recvBits : Int} {data : Bytes} (hfd : s.fdClients fd = some p)
    (hq : q ≠ p) : noteTexts env s (.task fd recvBits data) s' texts q = texts q := by
  have hne : s.fdClients fd ≠ some q := by
    rw [hfd]
    exact fun h => hq (Option.some.inj h).symm
  exact if_neg hne

theorem noteTexts_same (hq : s.heap q = some c) (hnot : a.StoresNothing env s q) :
    noteTexts env s a s' texts q = texts q := by
  cases a with
  | accept fd node =>
    have hne : q ≠ node := by
      rintro rfl
      exact hnot.accept fd rfl
    exact if_neg hne
  | input fd => rfl
  | task fd recvBits data =>
    simp only [noteTexts]
    split
    · rename_i hfd
      rw [hq]
      cases hdecode : Task.decode env ⟨fd, q, recvBits, data⟩ with
      | event e => exact stores_eq_old (hnot.event fd recvBits data c e rfl hfd hq hdecode) env _
      | logout => rfl
      | undecodable => rfl
      | ping => rfl
    · rfl
  | idle i => rfl

/-! ## All records -/

/-- Every record obeys the law. -/
def AllObey (law : FieldLaw) (s : State) (texts : Addr → TextField → Bytes) : Prop :=
  ∀ p c, s.heap p = some c → c.Obeys law (texts p)

/-- An event that stores nothing leaves the law to all records. -/
theorem AllObey.same {recvBits : Int} {data : Bytes} (hs : AllObey law s texts)
    (hfd : s.fdClients fd = some p) (hp : s.heap p = some c)
    (hdecode : Task.decode env ⟨fd, p, recvBits, data⟩ = .event e) (hnot : e.StoresNothing c) :
    AllObey law s (noteTexts env s (.task fd recvBits data) s' texts) := by
  intro q d hd
  by_cases hq : q = p
  · subst hq
    rw [noteTexts_event hfd hp hdecode, stores_eq_old hnot]
    exact hs q d hd
  · rw [noteTexts_other hfd hq]
    exact hs q d hd

/-- So does the record that an event writes. -/
theorem AllObey.wrote {recvBits : Int} {data : Bytes} (hs : AllObey law s texts)
    (hfd : s.fdClients fd = some p) (hp : s.heap p = some c)
    (hdecode : Task.decode env ⟨fd, p, recvBits, data⟩ = .event e) (hlaw : law.Stores env c e)
    (hw : Wrote env c e w) :
    AllObey law (s.setClient p w) (noteTexts env s (.task fd recvBits data) s' texts) := by
  intro q d hd
  rcases update_eq_some hd with ⟨rfl, rfl⟩ | ⟨hq, hd⟩
  · rw [noteTexts_event hfd hp hdecode]
    exact hw.obeys (hs q c hp) hlaw
  · rw [noteTexts_other hfd hq]
    exact hs q d hd

/-- A law of empty fields that an action's copies establish is kept. -/
theorem ActFrame.obeys (h : ActFrame env s a s') (hs : AllObey law s texts)
    (hnew : ∀ fd now, (newClient fd now).Obeys law fun _ => [])
    (hlaw : ∀ fd recvBits data p c e, a = .task fd recvBits data → s.fdClients fd = some p →
      s.heap p = some c → Task.decode env ⟨fd, p, recvBits, data⟩ = .event e →
      law.Stores env c e) : AllObey law s' (noteTexts env s a s' texts) := by
  intro q d hd
  cases h.record hd with
  | same c hq hself hnot =>
    rw [noteTexts_same hq hnot]
    exact (hs q c hq).congr hself
  | fresh fd now ha hd =>
    rw [ha, hd]
    simp only [noteTexts, if_true]
    exact hnew fd now
  | wrote fd recvBits data c w e ha hfd hq hdecode hw hself =>
    have hobeys := hw.obeys (hs q c hq) (hlaw fd recvBits data q c e ha hfd hq hdecode)
    rw [ha, noteTexts_event hfd hq hdecode]
    exact hobeys.congr hself

end ArpgServer
