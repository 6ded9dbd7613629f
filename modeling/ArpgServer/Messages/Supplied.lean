import ArpgServer.Messages.Templates
import ArpgServer.Messages.Texts

/-!
# Supplied texts

While all texts are stored whole, the events that show texts of clients are made of the texts
that the clients supplied. They give them back as long as no text ends its own slot and the
event fits its buffer.
-/

namespace ArpgServer

open CText

variable {lookup : Lookup} {env : Env} {s s' t u : State} {p q : Addr} {c d w : Client} {fd : Nat}
  {e : Event} {a : Action} {account username : Bytes} {texts : Addr → TextField → Bytes}
  {sender : Option Addr} {profile : Profile}

/-! ## Texts that are stored whole -/

/-- The name array holds the name, and its last byte is a terminator. -/
structure NameHeld (name : CharArray 64) (text : Bytes) : Prop where
  lastZero : name.LastZero
  text_eq : name.text = text

/-- Neither half of a signed name is cut. -/
def SignedWhole (c : Client) (account username : Bytes) : Prop :=
  account ≠ localAccount →
    if account.length < 32 then username.length ≤ 32
    else account.take 32 ++ c.leftBehind ++ username.take 32 = account ++ username

/-- All texts that an event stores fit their arrays, and none is cut. -/
structure Event.FitsWhole (e : Event) (env : Env) (c : Client) : Prop extends e.Fits env c where
  whole : e.evType = some evTypeAuth → c.state ≠ .success →
    ∀ account username, BySignature e account username → SignedWhole c account username

def TextsWhole (env : Env) (s : State) (a : Action) : Prop :=
  ∀ fd recvBits data p c e, a = .task fd recvBits data → s.fdClients fd = some p →
    s.heap p = some c → Task.decode env ⟨fd, p, recvBits, data⟩ = .event e → e.FitsWhole env c

/-- Every array holds the text. -/
def heldLaw : FieldLaw := ⟨NameHeld, CharArray.Holds, CharArray.Holds⟩

theorem length_guestName_lt (now : Int) : (guestName now).length < 64 := by
  have hhour : (intText (tmHour now)).length ≤ 2 :=
    length_intText_le (by unfold tmHour; omega) (by unfold tmHour; omega)
  have hmin : (intText (tmMin now)).length ≤ 2 :=
    length_intText_le (by unfold tmMin; omega) (by unfold tmMin; omega)
  have hsec : (intText (tmSec now)).length ≤ 2 :=
    length_intText_le (by unfold tmSec; omega) (by unfold tmSec; omega)
  have hword : (ofString "游客").length = 6 := by decide +kernel
  simp only [guestName, List.length_append, hword]
  omega

theorem guestName_isText (now : Int) : 0 ∉ guestName now := by
  have hword : 0 ∉ ofString "游客" := by decide +kernel
  have hnumber : ∀ k, 0 ∉ intText k := not_mem_intText (by decide)
  simp [guestName, hword, hnumber]

theorem signedName_held {name : CharArray 64} (hc : c.username.LastZero) (h0 : 0 ∉ account)
    (h0' : 0 ∉ username) (hfit : NameFits c account username)
    (hwhole : SignedWhole c account username) (h : signedName c account username = some name) :
    NameHeld name (if account ≠ localAccount then account ++ username else username) := by
  unfold signedName at h
  by_cases hlocal : account = localAccount
  · rw [if_neg (by simpa using hlocal)] at h
    rw [NameFits, if_pos hlocal] at hfit
    rw [if_neg (by simpa using hlocal)]
    cases h
    exact ⟨CharArray.lastZero_strncpy _ hfit, CharArray.text_strncpy _ h0' hfit⟩
  · rw [if_pos hlocal] at h ⊢
    obtain ⟨htext, hlast⟩ := signedName_text hc h0
    refine ⟨hlast.strncat h, ?_⟩
    rw [CharArray.text_strncat h0' h, htext]
    have hcut := hwhole hlocal
    split at hcut
    · rename_i hlen
      rw [if_pos hlen, List.take_of_length_le hcut]
    · rename_i hlen
      rw [if_neg hlen, hcut]

/-- Copies of C texts that fit and are not cut hold the texts. -/
theorem Event.FitsWhole.stores (hfits : e.FitsWhole env c) (he : e.IsText)
    (hc : c.username.LastZero) : heldLaw.Stores env c e where
  guest := ⟨hc.snprintf _ (by decide) (by decide),
    CharArray.text_snprintf_of_lt _ (by decide) (guestName_isText _) (length_guestName_lt _)⟩
  password ht hst hpw username hu := by
    have hlen := hfits.password ht hst hpw username hu
    exact ⟨CharArray.lastZero_strncpy _ hlen, CharArray.text_strncpy _ (he.attr _ _ hu) hlen⟩
  signature ht hst account username _ hsig hname :=
    signedName_held hc (he.attr _ _ hsig.account) (he.attr _ _ hsig.username)
      (hfits.signature ht hst account username hsig) (hfits.whole ht hst account username hsig)
      hname
  login ht hst hpass character hattr :=
    CharArray.holds_strncpy _ (he.attr _ _ hattr) (hfits.login ht hst hpass character hattr)
  character ht hst character hattr :=
    CharArray.holds_strncpy _ (he.attr _ _ hattr) (hfits.character ht hst character hattr)
  doing ht hst doing hattr :=
    CharArray.holds_strncpy _ (he.attr _ _ hattr) (hfits.doing ht hst doing hattr)

theorem newClient_held (fd : Nat) (now : Int) : (newClient fd now).Obeys heldLaw fun _ => [] :=
  ⟨⟨CharArray.lastZero_zero (by decide), CharArray.text_zero 64⟩,
    CharArray.holds_zero (by decide), CharArray.holds_zero (by decide)⟩

theorem TextsWhole.stores (hwhole : TextsWhole env s a) (henv : env.ParsesTexts)
    (hs : AllObey heldLaw s texts) {recvBits : Int} {data : Bytes}
    (ha : a = .task fd recvBits data) (hfd : s.fdClients fd = some p) (hp : s.heap p = some c)
    (hdecode : Task.decode env ⟨fd, p, recvBits, data⟩ = .event e) : heldLaw.Stores env c e :=
  (hwhole fd recvBits data p c e ha hfd hp hdecode).stores (Task.decode_isText henv hdecode)
    (hs p c hp).username.lastZero

theorem ActFrame.held (h : ActFrame env s a s') (hs : AllObey heldLaw s texts)
    (henv : env.ParsesTexts) (hwhole : TextsWhole env s a) :
    AllObey heldLaw s' (noteTexts env s a s' texts) :=
  h.obeys hs newClient_held fun _ _ _ _ _ _ ha hfd hp hdecode =>
    hwhole.stores henv hs ha hfd hp hdecode

/-- A name that is held is read. -/
theorem AllObey.name_eq {name : Bytes} (hs : AllObey heldLaw s texts) (hp : s.heap p = some c)
    (h : c.username.read (env.overrun p .username) = some name) : name = texts p .username := by
  have hheld := (hs p c hp).username
  rw [CharArray.read_of_terminated hheld.lastZero.terminated, hheld.text_eq] at h
  exact (Option.some.inj h).symm

/-! ## Supplied texts -/

/-- The texts of a profile are supplied. -/
structure Profile.Tells (profile : Profile) (texts : TextField → Bytes) : Prop where
  username : profile.username = texts .username
  character : profile.character = texts .character
  doing : profile.doing = texts .doing

/-- An event shows the texts that were stored last, and those that come with the event that it
answers. A missing body is no supplied text. -/
def Notice.Supplied (s : State) (texts : Addr → TextField → Bytes) (p : Addr) (e : Event) :
    Notice → Prop
  | .publicMessage sender _ body => sender = texts p .username ∧ ∀ b, e.body = some b → body = b
  | .privateMessage sender target _ body =>
    sender = texts p .username ∧ e.attr .target = some target ∧ ∀ b, e.body = some b → body = b
  | .userLogin profile => profile.Tells (texts p)
  | .userAdd profile => ∃ q, (s.heap q).isSome ∧ profile.Tells (texts q)
  | .changeCharacter username character =>
    username = texts p .username ∧ character = texts p .character
  | .doing sender action => sender = texts p .username ∧ e.attr .doing = some action
  | _ => True

theorem Profile.IsOf.tells (hs : AllObey heldLaw s texts) (h : profile.IsOf env s q) :
    profile.Tells (texts q) := by
  obtain ⟨c, hq, husername, hcharacter, hdoing⟩ := h
  have hobeys := hs q c hq
  rw [hobeys.character.read] at hcharacter
  rw [hobeys.doing.read] at hdoing
  exact ⟨hs.name_eq hq husername, (Option.some.inj hcharacter).symm, (Option.some.inj hdoing).symm⟩

theorem Notice.Calm.supplied {n : Notice} (hs : AllObey heldLaw t texts)
    (hold : ∀ q d, t.heap q = some d → (s.heap q).isSome) (h : n.Calm env (some p) t) :
    n.Supplied s texts p e := by
  cases n with
  | userLogin profile =>
    obtain ⟨q, hq, hprofile⟩ := h
    obtain rfl := Option.some.inj hq
    exact hprofile.tells hs
  | userAdd profile =>
    obtain ⟨-, q, hprofile⟩ := h
    obtain ⟨d, hd, -⟩ := id hprofile
    exact ⟨q, hold q d hd, hprofile.tells hs⟩
  | publicMessage sender timestamp body => exact absurd h id
  | privateMessage sender target timestamp body => exact absurd h id
  | changeCharacter username character => exact absurd h id
  | doing sender action => exact absurd h id
  | _ => trivial

/-- A handler that has no sender shows no texts. -/
theorem Notice.Calm.no_template {n : Notice} (h : n.Calm env none s) : n.template = none := by
  cases n with
  | userLogin profile =>
    obtain ⟨q, hq, -⟩ := h
    cases hq
  | userAdd profile => exact absurd h.1 (by simp)
  | publicMessage sender timestamp body => exact absurd h id
  | privateMessage sender target timestamp body => exact absurd h id
  | changeCharacter username character => exact absurd h id
  | doing sender action => exact absurd h id
  | _ => rfl

theorem Notice.Spoken.supplied {n : Notice} (hs : AllObey heldLaw s texts) (hp : s.heap p = some c)
    (h : n.Spoken env p c e) : n.Supplied t texts p e := by
  have hbody : ∀ {body : Bytes}, (e.localBody env).deref = some body →
      ∀ b, e.body = some b → body = b := by
    intro body hderef b hb
    rw [Event.localBody, hb] at hderef
    exact (Option.some.inj hderef).symm
  cases n with
  | publicMessage sender timestamp body => exact ⟨hs.name_eq hp h.1, hbody h.2⟩
  | privateMessage sender target timestamp body =>
    exact ⟨hs.name_eq hp h.1, h.2.1, hbody h.2.2⟩
  | _ => exact absurd h id

/-! ## One step -/

theorem Kept.supplied (h : Kept env (some p) t s') (hs : AllObey heldLaw t texts)
    (hold : ∀ q d, t.heap q = some d → (s.heap q).isSome) :
    Sends (Notice.Supplied s texts p e) t s' := by
  exact h.sends fun n hn => hn.supplied hs hold

theorem TurnedAway.supplied (h : TurnedAway p s s') :
    Sends (Notice.Supplied t texts q e) s s' := by
  obtain ⟨c, name, -, -, rfl⟩ := h
  exact .post (n := .systemMessage s.mytimestamp (.guestRefused name)) trivial (by simp) rfl

theorem EventFrame.supplied {recvBits : Int} {data : Bytes} (hs : AllObey heldLaw s texts)
    (hfd : s.fdClients fd = some p) (hp : s.heap p = some c)
    (hdecode : Task.decode env ⟨fd, p, recvBits, data⟩ = .event e)
    (hlaw : heldLaw.Stores env c e) (h : EventFrame env fd e p c (s.tick env.now) s') :
    Sends (Notice.Supplied s (noteTexts env s (.task fd recvBits data) s' texts) p e) s s' := by
  generalize htexts : noteTexts env s (.task fd recvBits data) s' texts = texts'
  have hsame : e.StoresNothing c → AllObey heldLaw (s.tick env.now) texts' := by
    intro hnot
    rw [← htexts]
    exact hs.same hfd hp hdecode hnot
  have hwrote : ∀ {w : Client}, Wrote env c e w →
      AllObey heldLaw ((s.tick env.now).setClient p w) texts' := by
    intro w hw
    rw [← htexts]
    exact hs.wrote hfd hp hdecode hlaw hw
  have hset : ∀ w, ((s.tick env.now).setClient p w).heap p = some w := by simp
  cases h with
  | kept hnot h => exact h.supplied (hsame hnot) fun q d hd => Option.isSome_of_eq_some hd
  | spoke hnot h =>
    obtain ⟨n, l, hn, hl, rfl⟩ := h
    exact .post (hn.supplied (hsame hnot) hp) hl rfl
  | turnedAway hnot hc h => exact h.supplied
  | refused d why ht hc hd h =>
    rw [h]
    exact .post (n := .authFailure why) trivial (by simp) rfl
  | passed c' d name t u ht hc hpass hbefore hpt hu hjoin =>
    have hw := hwrote (.passed c' ht hc hpass)
    have hlogin : Sends (Notice.Supplied s texts' p e) t u := by
      rw [hu]
      exact .post (n := .authSuccess name (luaGetuserrole env name)) trivial (by simp) rfl
    have hold : ∀ q x, ((s.tick env.now).setClient p (setCharacter c' e)).heap q = some x →
        (s.heap q).isSome := by
      intro q x hx
      rcases update_eq_some hx with ⟨rfl, -⟩ | ⟨-, hx⟩
      · exact Option.isSome_of_eq_some hp
      · exact Option.isSome_of_eq_some hx
    have hstart : Sends (Notice.Supplied s texts' p e) s t := hbefore.supplied hw hold
    refine (hstart.trans hlogin).trans ?_
    rcases hjoin with hjoin | haway
    · refine hjoin.supplied (fun q x hx => ?_) fun q x hx => ?_
      · obtain ⟨y, hy, hself⟩ := hbefore.before_login hpt hu hx
        exact (hw q y hy).congr hself
      · obtain ⟨y, hy, -⟩ := hbefore.before_login hpt hu hx
        exact hold q y hy
    · exact haway.supplied
  | character character name text l ht hc he hname htext hl h =>
    have hw := hwrote (.character character ht hc he)
    have hshown := (hw p _ (hset _)).character.read (env.overrun p .character)
    rw [htext] at hshown
    rw [h]
    exact .post (n := .changeCharacter name text)
      ⟨hw.name_eq (hset _) hname, Option.some.inj hshown⟩ hl rfl
  | doing doing name l ht hc he hname hl h =>
    have hw := hwrote (.doing doing ht hc he)
    rw [h]
    exact .post (n := .doing name doing) ⟨hw.name_eq (hset _) hname, he⟩ hl rfl

/-! ## All runs -/

/-- The action handles an event of a client. -/
def Action.IsEvent (a : Action) (env : Env) (s : State) (p : Addr) (e : Event) : Prop :=
  ∃ fd recvBits data, a = .task fd recvBits data ∧ s.fdClients fd = some p ∧
    Task.decode env ⟨fd, p, recvBits, data⟩ = .event e

theorem ActFrame.supplied (h : ActFrame env s a s') (hs : AllObey heldLaw s texts)
    (henv : env.ParsesTexts) (hwhole : TextsWhole env s a) :
    Sends (fun n => n.template.isSome → ∃ p e, a.IsEvent env s p e ∧
      n.Supplied s (noteTexts env s a s' texts) p e) s s' := by
  cases h with
  | kept now hnow hnot h =>
    have hnone : Sends (fun n => n.template = none) (s.tick now) s' :=
      h.sends fun n hn => hn.no_template
    refine hnone.mono fun n hn htemplate => ?_
    rw [hn] at htemplate
    cases htemplate
  | accept fd node ha hacc =>
    obtain ⟨-, rfl⟩ := acceptClient_eq_some hacc
    exact .of_sent rfl
  | input fd ha hin =>
    obtain ⟨p, c, -, rfl⟩ := noteInput_eq_some hin
    exact .of_sent rfl
  | event fd recvBits data p c e ha hfd hp hdecode h =>
    have hlaw := hwhole.stores henv hs ha hfd hp hdecode
    have hsupplied := h.supplied hs hfd hp hdecode hlaw
    rw [← ha] at hsupplied
    exact hsupplied.mono fun n hn _ => ⟨p, e, ⟨fd, recvBits, data, ha, hfd, hdecode⟩, hn⟩

/-- **Templates.** In the runs in which all texts are stored whole, each event that shows texts
of clients is made of the supplied ones, and gives them back exactly when they are plain and the
event fits its buffer. -/
theorem givenBack_of_runs
    (h : NotedRuns (byTable fun env s a => env.ParsesTexts ∧ TextsWhole env s a) noteTexts
      (fun _ _ => []) s texts)
    (henv : env.ParsesTexts) (hwhole : TextsWhole env s a)
    (hact : act (getFdnodeByname env) env s a = some s') :
    Sends (fun n => n.template.isSome → ∃ p e, a.IsEvent env s p e ∧
      n.Supplied s (noteTexts env s a s' texts) p e ∧
      (n.ReadFrom n.formatted ↔ n.Plain ∧ n.text.length < maxBufferLength)) s s' := by
  have hheld : AllObey heldLaw s texts := by
    refine h.invariant (I := AllObey heldLaw) ?_ ?_
    · intro conf p c hp
      cases hp
    · rintro lookup env s texts a s' hs ⟨rfl, henv, hwhole⟩ hact
      exact (act_frame hact).held hs henv hwhole
  refine ((act_frame hact).supplied hheld henv hwhole).mono fun n hn htemplate => ?_
  obtain ⟨p, e, hevent, hsupplied⟩ := hn htemplate
  exact ⟨p, e, hevent, hsupplied, Notice.readFrom_formatted_iff htemplate⟩

theorem Event.FitsWhole.of_short (h : ∀ k v, e.attr k = some v → v.length < 24) (env : Env)
    (c : Client) : e.FitsWhole env c where
  toFits := .of_short h env c
  whole _ _ account username hsig _ := by
    have haccount := h _ _ hsig.account
    have husername := h _ _ hsig.username
    rw [if_pos (by omega)]
    omega

theorem deliver_whole {m : Packet} (hquit : m.text.takeWhile (· ≠ 0) ≠ quitText)
    (hping : m.text.takeWhile (· ≠ 0) ≠ pingText)
    (hshort : ∀ k v, m.event.attr k = some v → v.length < 24) (now : Int) (s : State) :
    TextsWhole (.delivering now m) s (.task fd 4 m.data) := by
  intro fd' recvBits data p c e ha hfd hp hdecode
  cases ha
  rw [decode_packet hquit hping] at hdecode
  obtain rfl := Decoded.event.inj hdecode
  exact .of_short hshort _ c

/-- A greeting to the room. -/
def greeting : Packet where
  data := [120, 156, 179, 73, 45, 75, 205, 43, 81, 40, 169, 44, 72, 181, 85, 55, 54, 82, 183, 179,
    73, 202, 79, 169, 180, 203, 72, 205, 201, 201, 183, 209, 7, 179, 109, 244, 193, 106, 236, 0,
    66, 225, 14, 205]
  text := ofString "<event type='32'><body>hello</body></event>"
  event := { Event.ofList [(.type, ofString "32")] with body := some (ofString "hello") }

/-- A body that ends the CDATA section it is put into. -/
def cdataMessage : Packet where
  data := [120, 156, 179, 73, 45, 75, 205, 43, 81, 40, 169, 44, 72, 181, 85, 55, 54, 82, 183, 179,
    73, 202, 79, 169, 180, 139, 141, 85, 75, 47, 177, 182, 209, 7, 115, 108, 244, 193, 138, 236, 0,
    73, 126, 14, 175]
  text := ofString "<event type='32'><body>]]&gt;</body></event>"
  event := { Event.ofList [(.type, ofString "32")] with body := some cdataEnd }

theorem Packet.isText_of_body {attrs : List (Attr × Bytes)} {body : Bytes}
    (h : ∀ x ∈ attrs, 0 ∉ x.2) (hbody : 0 ∉ body) :
    ({ Event.ofList attrs with body := some body } : Event).IsText where
  attr := (Event.ofList_isText h).attr
  body b hb := by
    cases hb
    exact hbody

theorem givenBack_of_runs_greeting : ∃ s s' n,
    actAll (State.start fun _ => lobbyConf) [connect 5 100, deliver 0 5 guestLogin] = some s ∧
    act (getFdnodeByname (.delivering 0 greeting)) (.delivering 0 greeting) s
      (.task 5 4 greeting.data) = some s' ∧
    n = .publicMessage (guestName 0) 0 (ofString "hello") ∧
    ⟨5, [n]⟩ ∈ s'.sent.drop s.sent.length ∧ n.ReadFrom n.formatted := by
  have hcheck : (actAll (State.start fun _ => lobbyConf)
      [connect 5 100, deliver 0 5 guestLogin]).any (fun s =>
        (act (getFdnodeByname (.delivering 0 greeting)) (.delivering 0 greeting) s
          (.task 5 4 greeting.data)).any (fun s' =>
            ⟨5, [.publicMessage (guestName 0) 0 (ofString "hello")]⟩ ∈
              s'.sent.drop s.sent.length)) := by
    decide +kernel
  obtain ⟨s, hrun, hs⟩ := (Option.any_eq_true _ _).mp hcheck
  obtain ⟨s', hact, hs'⟩ := (Option.any_eq_true _ _).mp hs
  have hmem := of_decide_eq_true hs'
  refine ⟨s, s', _, hrun, hact, rfl, hmem, ?_⟩
  have hguest : ∀ t, (Env.delivering 0 guestLogin).ParsesTexts ∧
      TextsWhole (.delivering 0 guestLogin) t (.task 5 4 guestLogin.data) := fun t =>
    ⟨parsesTexts_delivering (Event.ofList_isText (by decide +kernel)) 0,
      deliver_whole (by decide +kernel) (by decide +kernel)
        (Event.ofList_short (by decide +kernel)) 0 t⟩
  have hconnect : ∀ t, (Env.delivering 0 quitPacket).ParsesTexts ∧
      TextsWhole (.delivering 0 quitPacket) t (.accept 5 100) := by
    refine fun t => ⟨parsesTexts_delivering (Event.ofList_isText (by simp)) 0, ?_⟩
    intro fd recvBits data p c e ha
    cases ha
  have hall : ∀ x ∈ [connect 5 100, deliver 0 5 guestLogin], ∀ t,
      x.1.ParsesTexts ∧ TextsWhole x.1 t x.2 := by
    simp only [List.forall_mem_cons, List.not_mem_nil, false_implies, implies_true, and_true]
    exact ⟨hconnect, hguest⟩
  have hsends := givenBack_of_runs
    (notedRuns_of_actAll (.of_forall (fun x hx t => ⟨rfl, hall x hx t⟩) _) hrun)
    (parsesTexts_delivering (Packet.isText_of_body (by decide +kernel) (by decide +kernel)) 0)
    (deliver_whole (by decide +kernel) (by decide +kernel)
      (Event.ofList_short (by decide +kernel)) 0 s) hact
  obtain ⟨p, e, -, -, hread⟩ := hsends.of_mem_drop hmem List.mem_cons_self rfl
  have hplain : 39 ∉ guestName 0 ∧ ¬ cdataEnd <:+: ofString "hello" := by decide +kernel
  exact hread.mpr ⟨hplain, by decide +kernel⟩

/-- A body may end its CDATA section. -/
theorem texts_not_givenBack : ¬ ∀ s texts env a s',
    NotedRuns (byTable fun env _ _ => env.ParsesTexts) noteTexts (fun _ _ => []) s texts →
    env.ParsesTexts → act (getFdnodeByname env) env s a = some s' →
    Sends (fun n => n.template.isSome → ∃ p e, a.IsEvent env s p e ∧
      n.Supplied s (noteTexts env s a s' texts) p e ∧ n.ReadFrom n.formatted) s s' := by
  intro hall
  have hcheck : (actAll (State.start fun _ => lobbyConf)
      [connect 5 100, deliver 0 5 guestLogin]).any (fun s =>
        (act (getFdnodeByname (.delivering 0 cdataMessage)) (.delivering 0 cdataMessage) s
          (.task 5 4 cdataMessage.data)).any (fun s' =>
            ⟨5, [.publicMessage (guestName 0) 0 cdataEnd]⟩ ∈ s'.sent.drop s.sent.length)) := by
    decide +kernel
  obtain ⟨s, hrun, hs⟩ := (Option.any_eq_true _ _).mp hcheck
  obtain ⟨s', hact, hs'⟩ := (Option.any_eq_true _ _).mp hs
  have hmem := of_decide_eq_true hs'
  have hparses : ∀ x ∈ [connect 5 100, deliver 0 5 guestLogin], x.1.ParsesTexts := by
    simp only [List.forall_mem_cons, List.not_mem_nil, false_implies, implies_true, and_true]
    refine ⟨?_, ?_⟩ <;>
    · apply parsesTexts_delivering
      exact Event.ofList_isText (by decide +kernel)
  have hsends := hall s _ _ _ s'
    (notedRuns_of_actAll (.of_forall (fun x hx _ => ⟨rfl, hparses x hx⟩) _) hrun)
    (parsesTexts_delivering (Packet.isText_of_body (by decide +kernel) (by decide +kernel)) 0) hact
  obtain ⟨p, e, -, -, hread⟩ := hsends.of_mem_drop hmem List.mem_cons_self rfl
  have hplain := ((Notice.readFrom_formatted_iff rfl).mp hread).1
  exact hplain.2 (List.infix_refl cdataEnd)

end ArpgServer
