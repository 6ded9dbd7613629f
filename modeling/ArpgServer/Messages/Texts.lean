import ArpgServer.Messages.Stored

/-!
# The texts of a client

Names, characters and doings are copied into arrays of fixed sizes with limits that leave no
room for a terminator, and a signed name is put together in place. As long as the texts are
short enough each array stays terminated and shows the start of the text that was stored
last; the last byte of the name array is then never anything but a terminator.
-/

namespace ArpgServer

open CText

variable {lookup : Lookup} {env : Env} {s s' : State} {p : Addr} {c : Client} {fd : Nat}
  {e : Event} {a : Action} {account username old : Bytes} {texts : Addr → TextField → Bytes}

/-! ## Texts that fit -/

/-- What earlier names left in the second half of the array. -/
def Client.leftBehind (c : Client) : Bytes := (c.username.bytes.drop 32).takeWhile (· ≠ 0)

/-- A signed name fits: the account is shorter than its half of the array, or what is written
behind it and what was there go on with the name. -/
def NameFits (c : Client) (account username : Bytes) : Prop :=
  if account = localAccount then username.length < 64
  else account.length < 32 ∨
    (account.take 32 ++ c.leftBehind ++ username.take 32).length < 64 ∧
      account.take 32 ++ c.leftBehind ++ username.take 32 <+: account ++ username

/-- All texts that an event stores fit their arrays. -/
structure Event.Fits (e : Event) (env : Env) (c : Client) : Prop where
  password : e.evType = some evTypeAuth → c.state ≠ .success → ByPassword env e →
    ∀ username, e.attr .username = some username → username.length < 64
  signature : e.evType = some evTypeAuth → c.state ≠ .success →
    ∀ account username, BySignature e account username → NameFits c account username
  login : e.evType = some evTypeAuth → c.state ≠ .success →
    (authCredentials env env.now c e).any AuthOutcome.isPassed →
    ∀ character, e.attr .character = some character → character.length < 32
  character : e.evType = some evTypeChangeCharacter → c.state = .success →
    ∀ character, e.attr .character = some character → character.length < 32
  doing : e.evType = some evTypeDoing → c.state = .success →
    ∀ doing, e.attr .doing = some doing → doing.length < 24

def TextsFit (env : Env) (s : State) (a : Action) : Prop :=
  ∀ fd recvBits data p c e, a = .task fd recvBits data → s.fdClients fd = some p →
    s.heap p = some c → Task.decode env ⟨fd, p, recvBits, data⟩ = .event e → e.Fits env c

/-- Every field is terminated and shows the start of the text stored in it last, and the name
a signed login puts together stays inside its array. -/
structure TextsKept (s : State) (texts : Addr → TextField → Bytes) : Prop where
  username : ∀ p c, s.heap p = some c → c.username.Shows (texts p .username)
  character : ∀ p c, s.heap p = some c → c.character.Shows (texts p .character)
  doing : ∀ p c, s.heap p = some c → c.doing.Shows (texts p .doing)
  inside : ∀ p c e account username, s.heap p = some c → e.IsText →
    BySignature e account username → NameFits c account username →
    (signedName c account username).isSome

/-! ## The name -/

/-- The name array as good logins leave it. -/
structure NameKept (name : CharArray 64) (text : Bytes) : Prop where
  lastZero : name.LastZero
  shows : name.text <+: text

/-- The first half is filled before the rest is appended. -/
theorem signedName_text (hc : c.username.LastZero) (h0 : 0 ∉ account) :
    ((c.username.strncpy account 32 (by decide)).text =
        if account.length < 32 then account else account.take 32 ++ c.leftBehind) ∧
      (c.username.strncpy account 32 (by decide)).LastZero := by
  refine ⟨?_, hc.strncpy account (by decide)⟩
  split
  · rename_i hlen
    exact CharArray.text_strncpy_of_lt _ _ h0 hlen
  · rename_i hlen
    exact CharArray.text_strncpy_of_le _ _ h0 (by omega)

theorem signedName_inside (hc : c.username.LastZero) (h0 : 0 ∉ account)
    (hfit : NameFits c account username) : (signedName c account username).isSome := by
  unfold signedName
  split
  · rename_i hlocal
    obtain ⟨htext, hlast⟩ := signedName_text hc h0
    rw [NameFits, if_neg hlocal] at hfit
    have hroom : (c.username.strncpy account 32 (by decide)).text.length +
        (username.take 32).length < 64 := by
      rw [htext]
      split
      · rw [List.length_take]
        omega
      · rename_i hlen
        obtain ⟨hlength, -⟩ := hfit.resolve_left hlen
        rwa [List.length_append] at hlength
    rw [CharArray.strncat, dif_pos ⟨hlast.terminated, hroom⟩]
    rfl
  · rfl

theorem signedName_kept {name : CharArray 64} (hc : c.username.LastZero) (h0 : 0 ∉ account)
    (h0' : 0 ∉ username) (hfit : NameFits c account username)
    (h : signedName c account username = some name) :
    NameKept name (if account ≠ localAccount then account ++ username else username) := by
  unfold signedName at h
  unfold NameFits at hfit
  by_cases hlocal : account = localAccount
  · rw [if_neg (by simpa using hlocal)] at h
    rw [if_pos hlocal] at hfit
    rw [if_neg (by simpa using hlocal)]
    cases h
    exact ⟨CharArray.lastZero_strncpy _ hfit, (CharArray.holds_strncpy _ h0' hfit).shows.2⟩
  · rw [if_pos hlocal] at h ⊢
    rw [if_neg hlocal] at hfit
    obtain ⟨htext, hlast⟩ := signedName_text hc h0
    refine ⟨hlast.strncat h, ?_⟩
    rw [CharArray.text_strncat h0' h, htext]
    split
    · exact (List.prefix_append_right_inj account).mpr (List.take_prefix 32 username)
    · rename_i hlen
      exact (hfit.resolve_left hlen).2

/-- Every array is terminated and shows the start of the text. -/
def shownLaw : FieldLaw := ⟨NameKept, CharArray.Shows, CharArray.Shows⟩

/-- Copies of C texts that fit are terminated. -/
theorem Event.Fits.stores (hfits : e.Fits env c) (he : e.IsText)
    (hc : NameKept c.username old) : shownLaw.Stores env c e where
  guest := ⟨hc.lastZero.snprintf _ (by decide) (by decide),
    CharArray.text_snprintf _ _ (by decide) (by decide)⟩
  password ht hst hpw username hu := by
    have hlen := hfits.password ht hst hpw username hu
    exact ⟨CharArray.lastZero_strncpy _ hlen,
      (CharArray.holds_strncpy _ (he.attr _ _ hu) hlen).shows.2⟩
  signature ht hst account username _ hsig hname :=
    signedName_kept hc.lastZero (he.attr _ _ hsig.account) (he.attr _ _ hsig.username)
      (hfits.signature ht hst account username hsig) hname
  login ht hst hpass character hattr :=
    (CharArray.holds_strncpy _ (he.attr _ _ hattr)
      (hfits.login ht hst hpass character hattr)).shows
  character ht hst character hattr :=
    (CharArray.holds_strncpy _ (he.attr _ _ hattr)
      (hfits.character ht hst character hattr)).shows
  doing ht hst doing hattr :=
    (CharArray.holds_strncpy _ (he.attr _ _ hattr) (hfits.doing ht hst doing hattr)).shows

/-! ## All runs -/

theorem newClient_shown (fd : Nat) (now : Int) : (newClient fd now).Obeys shownLaw fun _ => [] :=
  ⟨⟨CharArray.lastZero_zero (by decide), (CharArray.holds_zero (by decide)).shows.2⟩,
    (CharArray.holds_zero (by decide)).shows, (CharArray.holds_zero (by decide)).shows⟩

/-- Texts that fit keep all arrays terminated. -/
theorem ActFrame.shown (h : ActFrame env s a s') (hs : AllObey shownLaw s texts)
    (henv : env.ParsesTexts) (hfit : TextsFit env s a) :
    AllObey shownLaw s' (noteTexts env s a s' texts) := by
  refine h.obeys hs newClient_shown fun fd recvBits data p c e ha hfd hp hdecode => ?_
  exact (hfit fd recvBits data p c e ha hfd hp hdecode).stores (Task.decode_isText henv hdecode)
    (hs p c hp).username

theorem AllObey.textsKept (h : AllObey shownLaw s texts) : TextsKept s texts where
  username p c hp := ⟨(h p c hp).username.lastZero.terminated, (h p c hp).username.shows⟩
  character p c hp := (h p c hp).character
  doing p c hp := (h p c hp).doing
  inside p c _ _ _ hp he hsig hfit :=
    signedName_inside (h p c hp).username.lastZero (he.attr _ _ hsig.account) hfit

/-- **Texts.** While all stored texts fit, every field of every client is terminated inside its
array, shows the start of the text stored last, and nothing is written outside of an array. -/
theorem textsKept_of_runs
    (h : NotedRuns (byTable fun env s a => env.ParsesTexts ∧ TextsFit env s a) noteTexts
      (fun _ _ => []) s texts) : TextsKept s texts := by
  have hshown : AllObey shownLaw s texts := by
    refine h.invariant (I := AllObey shownLaw) ?_ ?_
    · intro conf p c hp
      cases hp
    · rintro lookup env s texts a s' hs ⟨rfl, henv, hfit⟩ hact
      exact (act_frame hact).shown hs henv hfit
  exact hshown.textsKept

/-- Texts that are shorter than the smallest array fit. -/
theorem Event.Fits.of_short (h : ∀ k v, e.attr k = some v → v.length < 24) (env : Env)
    (c : Client) : e.Fits env c where
  password _ _ _ username hu := by
    have hshort := h _ _ hu
    omega
  signature _ _ account username hsig := by
    have haccount := h _ _ hsig.account
    have husername := h _ _ hsig.username
    unfold NameFits
    split
    · omega
    · exact Or.inl (by omega)
  login _ _ _ character hattr := by
    have hshort := h _ _ hattr
    omega
  character _ _ character hattr := by
    have hshort := h _ _ hattr
    omega
  doing _ _ doing hattr := h _ _ hattr

theorem Event.ofList_short {attrs : List (Attr × Bytes)} (h : ∀ x ∈ attrs, x.2.length < 24)
    (k : Attr) (v : Bytes) (hv : (Event.ofList attrs).attr k = some v) : v.length < 24 := by
  change attrs.lookup k = some v at hv
  obtain ⟨before, after, hattrs, -⟩ := List.lookup_eq_some_iff.mp hv
  apply h (k, v)
  rw [hattrs]
  simp

theorem parsesTexts_delivering {m : Packet} (h : m.event.IsText) (now : Int) :
    (Env.delivering now m).ParsesTexts := by
  intro text
  simp only [Env.delivering]
  split
  · exact h
  · exact Event.ofList_isText (by simp)

/-- A packet of short texts is delivered. -/
theorem deliver_fits {m : Packet} (hquit : m.text.takeWhile (· ≠ 0) ≠ quitText)
    (hping : m.text.takeWhile (· ≠ 0) ≠ pingText) (htext : m.event.IsText)
    (hshort : ∀ k v, m.event.attr k = some v → v.length < 24) (now : Int) (s : State) :
    (Env.delivering now m).ParsesTexts ∧
      TextsFit (.delivering now m) s (.task fd 4 m.data) := by
  refine ⟨parsesTexts_delivering htext now, ?_⟩
  intro fd' recvBits data p c e ha hfd hp hdecode
  cases ha
  rw [decode_packet hquit hping] at hdecode
  obtain rfl := Decoded.event.inj hdecode
  exact .of_short hshort _ c

/-- A guest that becomes an elf. -/
def becomeElf : Packet where
  data := [120, 156, 179, 73, 45, 75, 205, 43, 81, 40, 169, 44, 72, 181, 85, 55, 52, 81, 87, 72,
    206, 72, 44, 74, 76, 46, 73, 45, 178, 85, 79, 205, 73, 83, 215, 183, 3, 0, 202, 58, 11, 45]
  text := ofString "<event type='14' character='elf'/>"
  event := .ofList [(.type, ofString "14"), (.character, ofString "elf")]

/-- A doing of 24 letters. -/
def longDoing : Packet where
  data := [120, 156, 179, 73, 45, 75, 205, 43, 81, 40, 169, 44, 72, 181, 85, 55, 52, 48, 84, 87,
    72, 201, 207, 204, 75, 183, 85, 79, 196, 1, 212, 245, 237, 0, 209, 227, 17, 159]
  text := ofString "<event type='101' doing='aaaaaaaaaaaaaaaaaaaaaaaa'/>"
  event := .ofList [(.type, ofString "101"), (.doing, List.replicate 24 97)]

theorem textsKept_of_runs_guest : ∃ s texts,
    actAll (State.start fun _ => lobbyConf)
      [connect 5 100, deliver 0 5 guestLogin, deliver 0 5 becomeElf] = some s ∧
    texts 100 .character = ofString "elf" ∧ TextsKept s texts := by
  have hcheck : (actAll (State.start fun _ => lobbyConf)
      [connect 5 100, deliver 0 5 guestLogin, deliver 0 5 becomeElf]).any (fun _ =>
        noteAll noteTexts (State.start fun _ => lobbyConf) (fun _ _ => [])
          [connect 5 100, deliver 0 5 guestLogin, deliver 0 5 becomeElf] 100 .character =
            ofString "elf") := by
    decide +kernel
  obtain ⟨s, hrun, hs⟩ := (Option.any_eq_true _ _).mp hcheck
  refine ⟨s, _, hrun, of_decide_eq_true hs, textsKept_of_runs (notedRuns_of_actAll ?_ hrun)⟩
  refine .of_forall (fun x hx s => ⟨rfl, ?_⟩) _
  simp only [List.mem_cons, List.not_mem_nil, or_false] at hx
  rcases hx with rfl | rfl | rfl
  · refine ⟨parsesTexts_delivering (Event.ofList_isText (by simp)) 0, ?_⟩
    intro fd recvBits data p c e ha
    cases ha
  · exact deliver_fits (by decide +kernel) (by decide +kernel)
      (Event.ofList_isText (by decide +kernel)) (Event.ofList_short (by decide +kernel)) 0 s
  · exact deliver_fits (by decide +kernel) (by decide +kernel)
      (Event.ofList_isText (by decide +kernel)) (Event.ofList_short (by decide +kernel)) 0 s

/-- A doing that fills its array is not terminated in it. -/
theorem texts_not_kept : ¬ ∀ s texts,
    NotedRuns (byTable fun env _ _ => env.ParsesTexts) noteTexts (fun _ _ => []) s texts →
    TextsKept s texts := by
  intro hall
  have hcheck : (actAll (State.start fun _ => lobbyConf)
      [connect 5 100, deliver 0 5 guestLogin, deliver 0 5 longDoing]).any (fun s =>
        (s.heap 100).any (fun c : Client => 0 ∉ c.doing.bytes)) := by
    decide +kernel
  obtain ⟨s, hrun, hs⟩ := (Option.any_eq_true _ _).mp hcheck
  obtain ⟨c, hc, hdoing⟩ := (Option.any_eq_true _ _).mp hs
  have hparses : ∀ x ∈ [connect 5 100, deliver 0 5 guestLogin, deliver 0 5 longDoing],
      x.1.ParsesTexts := by
    simp only [List.forall_mem_cons, List.not_mem_nil, false_implies, implies_true, and_true]
    refine ⟨?_, ?_, ?_⟩ <;>
    · apply parsesTexts_delivering
      exact Event.ofList_isText (by decide +kernel)
  have hkept := hall s _
    (notedRuns_of_actAll (.of_forall (fun x hx _ => ⟨rfl, hparses x hx⟩) _) hrun)
  have hterm := (hkept.doing 100 c hc).1
  rw [CharArray.terminated, List.contains_iff_mem] at hterm
  exact of_decide_eq_true hdoing hterm

end ArpgServer
