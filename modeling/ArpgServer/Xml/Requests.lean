import ArpgServer.Model.Request
import ArpgServer.Rooms.Audience
import ArpgServer.Xml.Events
import ArpgServer.Xml.Instructions

/-!
# From document to document

A message is a document that the server parses, and what the server sends is a document a
client parses. Here both ends are `ezxml`: a client that has not logged in gets its own
document back, and the body of a public message arrives in the documents of its room.
-/

namespace ArpgServer

open CText Ezxml

variable {lookup : Lookup} {env env' : Env} {s s' : State} {t : Task} {c : Client} {e : Event}
  {evType : Int}

/-! ## What is decoded -/

theorem decode_withEzxml (henv : env.withEzxml t.data = some env') (h : t.decode env' = .event e) :
    ∃ text r, env.uncompress t.data = some text ∧ ezxmlParseStr (inputBuffer text) = some r ∧
      e = r.tree.event ∧ env'.ezxmlToxml e = ezxmlToxml r := by
  unfold Env.withEzxml at henv
  cases htext : env.uncompress t.data with
  | none =>
    rw [htext] at henv
    cases henv
    unfold Task.decode at h
    rw [htext] at h
    split at h <;> cases h
  | some text =>
    rw [htext] at henv
    obtain ⟨r, hr, rfl⟩ := Option.map_eq_some_iff.mp henv
    refine ⟨text, r, rfl, hr, ?_⟩
    simp only [Task.decode, htext] at h
    split at h
    · split at h
      · cases h
      · split at h <;> cases h
        exact ⟨rfl, rfl⟩
    · cases h

theorem zero_not_mem_txt {txt name b : Bytes} {start : Nat} {x : Xml} (h : x.Ok txt start)
    (hb : (x.find name).txt? = some b) : 0 ∉ b := by
  induction x generalizing start with
  | null => cases hb
  | tag name' attr own off child ordered _ ih =>
    obtain ⟨-, -, -, hown, -, hordered⟩ := h
    unfold Xml.find at hb
    split at hb
    · cases hb
      exact hown
    · exact ih hordered hb

/-- The parser hands C texts to the handlers. -/
theorem isText_event {x : Xml} (h : x.Root) : x.event.IsText := by
  rcases h with rfl | ⟨name, attr, txt, child, rfl, -, -, hattr, -, hchild, -⟩
  · exact ⟨fun _ _ hv => (by cases hv), fun _ hb => (by cases hb)⟩
  · refine ⟨fun k v hv => ?_, fun b hb => zero_not_mem_txt hchild hb⟩
    obtain ⟨a, ha, rfl⟩ := Option.map_eq_some_iff.mp hv
    cases hvalue : a.2 with
    | none => exact List.not_mem_nil
    | some v => exact (hattr a (List.mem_of_find?_eq_some ha)).value v hvalue

theorem isText_of_withEzxml (henv : env.withEzxml t.data = some env')
    (h : t.decode env' = .event e) : e.IsText := by
  obtain ⟨text, r, -, hr, rfl, -⟩ := decode_withEzxml henv h
  exact isText_event (root_ezxmlParseStr hr)

/-! ## A guest's greeting -/

def greetingTree : Xml :=
  .tag (ofString "event") [(ofString "type", some (ofString "32"))] [] 0
    (.tag (ofString "body") [] (ofString "hello") 0 .null .null) .null

/-- The environment of the greeting, with the parser and the serializer. -/
def greetingEnv : Env :=
  { Env.delivering 2 greeting with
    ezxmlParseStr := fun _ => greetingTree.event
    ezxmlToxml := fun _ => ezxmlToxml { tree := greetingTree, pi := [], err := none } }

theorem withEzxml_greeting :
    (Env.delivering 2 greeting).withEzxml greeting.data = some greetingEnv := by
  have hparse : ezxmlParseStr (inputBuffer greeting.text) =
      some { tree := greetingTree, pi := [], err := none } := by decide +kernel
  have htext : (Env.delivering 2 greeting).uncompress greeting.data = some greeting.text := by
    decide +kernel
  rw [Env.withEzxml, htext]
  simp only [hparse, Option.map_some]
  rfl

theorem greeting_decode (fd : Nat) (p : Addr) :
    Task.decode greetingEnv ⟨fd, p, 4, greeting.data⟩ = .event greetingTree.event := by
  have hquit : greeting.text.takeWhile (· ≠ 0) ≠ quitText := by decide +kernel
  have hping : greeting.text.takeWhile (· ≠ 0) ≠ pingText := by decide +kernel
  simp only [Task.decode, greetingEnv, Env.delivering, Int.reduceLT, if_true, if_neg hquit,
    if_neg hping]

/-! ## The answer to a client that has not logged in -/

theorem handleEvent_script {p : Addr} {fd : Nat} (hc : c.state ≠ .success)
    (ht : evType ≠ evTypeAuth) :
    handleEvent lookup env p fd e evType c.state =
      Proc.modify (luaExec env fd (env.ezxmlToxml e)) := by
  have hnot : ∀ n : Int, ¬ (evType = n ∧ c.state = .success) := fun n h => hc h.2
  have hprivate : ¬ (evType = evTypePrivateMessage ∧ c.state = .success ∧
      (e.attr .target).isSome ∧ (e.localBody env).isNull = false) := fun h => hc h.2.1
  have hpublic : ¬ (evType = evTypePublicMessage ∧ c.state = .success ∧
      (e.localBody env).isNull = false) := fun h => hc h.2.1
  simp only [handleEvent, if_neg ht, if_neg (hnot _), if_neg hprivate, if_neg hpublic, if_neg hc]

/-- A client that has not logged in and sends anything but a login gets its document back: what
it receives is parsed without an error, into the same body and the same attributes but for
blanks in them. -/
theorem script_answers (henv : env.withEzxml t.data = some env') (hp : s.heap t.client = some c)
    (hc : c.state ≠ .success) (hdecode : t.decode env' = .event e) (ht : e.evType = some evType)
    (hauth : evType ≠ evTypeAuth) (hfd : 0 < t.fd)
    (hfits : (env'.ezxmlToxml e).length < maxBufferLength)
    (h : (parseMessage lookup env' t).run s = some ((), s')) :
    ∃ reply, s' = (s.tick env'.now).sendMessage t.fd (.script reply) ∧
      ∀ junk, ∃ r, ezxmlParseStr (reply ++ 0 :: junk) = some r ∧ r.err = none ∧
        r.tree.event.body = e.body ∧
        ∀ k, r.tree.event.attr k = (e.attr k).map fun v => v.map (readAs .attribute) := by
  obtain ⟨text, r, -, hr, he, hxml⟩ := decode_withEzxml henv hdecode
  have hne : r.tree ≠ .null := by
    intro hnull
    rw [he, hnull] at ht
    cases ht
  refine ⟨ezxmlToxml r, ?_, fun junk => ?_⟩
  · obtain ⟨s₀, hs₀⟩ := head_ezxmlToxml (root_ezxmlParseStr hr) hne
    have hrun := parseEvent_handle hp ht (parseMessage_event hdecode h)
    have hlen : 0 < (ezxmlToxml r).length := by
      rw [hs₀]
      exact Nat.zero_lt_succ _
    rw [handleEvent_script hc hauth] at hrun
    have hmodify := Proc.run_modify_eq_some.mp hrun
    rw [luaExec, if_pos hfits, hxml] at hmodify
    simp only [Option.map_some, if_pos (And.intro hfd hlen)] at hmodify
    exact (Option.some.inj hmodify).symm
  · refine ⟨_, ezxmlParseStr_written hr hne junk, rfl, ?_, fun k => ?_⟩
    · rw [he]
      change (ezxmlChild r.tree.reread _).txt? = (ezxmlChild r.tree _).txt?
      rw [ezxmlChild_reread, txt?_reread]
    · rw [he]
      exact ezxmlAttr_reread _ _

/-- A client greets the server before it logs in. -/
theorem script_answers_greeting : ∃ (s s' : State) (reply : Bytes) (r : Parsed),
    Reachable s ∧ s'.sent = s.sent ++ [⟨5, [.script reply]⟩] ∧
      ezxmlParseStr (reply ++ [0]) = some r ∧ r.tree.event.body = some (ofString "hello") := by
  have hcheck : (actAll (State.start fun _ => lobbyConf) [connect 5 100]).any (fun s =>
      (s.heap 100).any (fun c : Client => c.state ≠ .success) ∧
        ((parseMessage (getFdnodeByname greetingEnv) greetingEnv
          ⟨5, 100, 4, greeting.data⟩).run s).isSome) := by
    decide +kernel
  obtain ⟨s, hrun, hs⟩ := (Option.any_eq_true _ _).mp hcheck
  obtain ⟨h100, hparse⟩ := of_decide_eq_true hs
  obtain ⟨c, hc, hcs⟩ := (Option.any_eq_true _ _).mp h100
  obtain ⟨⟨u, s'⟩, hparse⟩ := Option.isSome_iff_exists.mp hparse
  have hfits : (greetingEnv.ezxmlToxml greetingTree.event).length < maxBufferLength := by
    decide +kernel
  have htype : greetingTree.event.evType = some evTypePublicMessage := by decide +kernel
  obtain ⟨reply, hs', hreply⟩ := script_answers withEzxml_greeting hc (of_decide_eq_true hcs)
    (greeting_decode 5 100) htype (by decide) (by decide) hfits hparse
  obtain ⟨r, hr, -, hbody, -⟩ := hreply []
  refine ⟨s, s', reply, r, reachable_of_actAll hrun, by rw [hs']; rfl, hr, ?_⟩
  rw [hbody]
  decide +kernel

/-! ## Public messages -/

theorem ezxmlAttr_tree {n : Notice} {name : String} {value : Bytes}
    (h : (n.attrs.find? fun a => ofString a.1 = ofString name) = some (name, value)) :
    ezxmlAttr n.tree (ofString name) = some value := by
  have hfind : findAttr (ofString name) (n.attrs.map fun a => (ofString a.1, some a.2)) =
      some (ofString name, some value) := by
    rw [findAttr, List.find?_map]
    exact congrArg (Option.map _) h
  change (findAttr (ofString name) (n.attrs.map fun a => (ofString a.1, some a.2))).map _ = _
  rw [hfind]
  rfl

theorem literal_publicMessage {name body : Bytes} {now : Int} (hname : Literal name)
    (hzero : 0 ∉ body) (hbody : ¬ cdataEnd <:+: body) :
    (Notice.publicMessage name now body).Literal where
  composed := by simp [Notice.Composed]
  attrs := by
    intro a ha
    simp only [Notice.attrs, List.mem_cons, List.not_mem_nil, or_false] at ha
    rcases ha with rfl | rfl | rfl
    · exact literal_intText evTypePublicMessage
    · exact hname
    · exact literal_intText now
  body := by
    intro b hb
    cases hb
    exact ⟨hzero, hbody⟩

/-- The document a member of the room receives. -/
structure ReadsPublic (n : Notice) (name body : Bytes) (now : Int) (r : Parsed) : Prop where
  parsed : ∀ junk, ezxmlParseStr (n.formatted ++ 0 :: junk) = some r
  err : r.err = none
  type : ezxmlAttr r.tree (ofString "type") = some (intText evTypePublicMessage)
  sender : ezxmlAttr r.tree (ofString "from") = some name
  timestamp : ezxmlAttr r.tree (ofString "timestamp") = some (intText now)
  body : (ezxmlChild r.tree (ofString "body")).txt? = some (normalize body)

theorem readsPublic_formatted {name body : Bytes} {now : Int} (hname : Literal name)
    (hzero : 0 ∉ body) (hbody : ¬ cdataEnd <:+: body)
    (hfits : (Notice.publicMessage name now body).text.length < maxBufferLength) :
    ∃ r, ReadsPublic (.publicMessage name now body) name body now r := by
  have hliteral := @literal_publicMessage name body now hname hzero hbody
  have hfrom : ofString "type" ≠ ofString "from" := by decide +kernel
  have htime : ofString "type" ≠ ofString "timestamp" := by decide +kernel
  have hfromTime : ofString "from" ≠ ofString "timestamp" := by decide +kernel
  refine ⟨_, fun junk => ezxmlParseStr_formatted hliteral hfits junk, rfl, ?_, ?_, ?_, ?_⟩
  · exact ezxmlAttr_tree (by simp [Notice.attrs])
  · exact ezxmlAttr_tree (by simp [Notice.attrs, hfrom])
  · exact ezxmlAttr_tree (by simp [Notice.attrs, htime, hfromTime])
  · simp [ezxmlChild, Notice.tree, Notice.bodyText, Xml.child, Xml.find, Xml.txt?]

/-- What a client says in a document is sent, once to each client with its room number and to
nobody else, in documents that are parsed as its words under its name. -/
theorem publicMessage_arrives (hs : Reachable s) (henv : env.withEzxml t.data = some env')
    (h : Handled env' s t c e evTypePublicMessage s') (hc : c.state = .success)
    (hmuted : c.type ≠ clientTypeShutup) {name body : Bytes}
    (hname : c.username.read (env'.overrun t.client .username) = some name)
    (hliteral : Literal name) (hbody : e.body = some body) (hcdata : ¬ cdataEnd <:+: body)
    (hfits : (Notice.publicMessage name env'.now body).text.length < maxBufferLength) :
    ∃ l, s'.sent = s.sent ++ l ∧ (l.map Send.fd).Nodup ∧
      (∀ k, k ∈ l.map Send.fd ↔
        0 ≤ c.roomid ∧ ∃ q d, s.fdClients k = some q ∧ s.heap q = some d ∧ d.roomid = c.roomid) ∧
      ∀ m ∈ l, ∃ n r, m.message = [n] ∧ ReadsPublic n name body env'.now r := by
  have hsound := hs.toAnyLookup.sound
  obtain ⟨d, hd, hfd⟩ := hsound.registered _ _ h.registered
  obtain rfl : d = c := Option.some.inj (hd.symm.trans h.record)
  have hlocal : e.localBody env' = .text body := by rw [Event.localBody, hbody]
  have hacc : e.Accepted env' d evTypePublicMessage :=
    Or.inl ⟨rfl, hmuted, by rw [hlocal]; rfl⟩
  obtain ⟨n, hn, l, hsent, hmessage, hnodup, hmem⟩ :=
    handleEvent_announces (hsound.tick env'.now) h.record hfd hc hacc h.handle
  have hsays : n = .publicMessage name env'.now body := by
    rw [Event.announcement, hname, hlocal] at hn
    exact (Option.some.inj hn).symm
  have hzero : 0 ∉ body := (isText_of_withEzxml henv h.decoded).body body hbody
  obtain ⟨r, hr⟩ := readsPublic_formatted hliteral hzero hcdata hfits
  exact ⟨l, hsent, hnodup, hmem, fun m hm => ⟨n, r, hmessage m hm, hsays ▸ hr⟩⟩

/-- A guest greets the lobby, where another guest is. -/
theorem publicMessage_arrives_greeting : ∃ (s s' : State) (m : Send) (n : Notice) (r : Parsed),
    Reachable s ∧ m ∈ s'.sent.drop s.sent.length ∧ m.fd = 6 ∧ m.message = [n] ∧
      ReadsPublic n (guestName 0) (ofString "hello") 2 r := by
  have hcheck : (actAll (State.start fun _ => lobbyConf) [connect 5 100, connect 6 200,
      deliver 0 5 guestLogin, deliver 1 6 guestLogin]).any (fun s => s.fdClients 5 = some 100 ∧
        s.fdClients 6 = some 200 ∧
        (s.heap 100).any (fun c : Client => c.state = .success ∧ c.type ≠ clientTypeShutup ∧
          c.roomid = 0 ∧ c.username.read none = some (guestName 0)) ∧
        (s.heap 200).any (fun c : Client => c.roomid = 0) ∧
        ((parseMessage (getFdnodeByname greetingEnv) greetingEnv
          ⟨5, 100, 4, greeting.data⟩).run s).isSome) := by
    decide +kernel
  obtain ⟨s, hrun, hs⟩ := (Option.any_eq_true _ _).mp hcheck
  obtain ⟨h5, h6, h100, h200, hparse⟩ := of_decide_eq_true hs
  obtain ⟨c, hc, hcs⟩ := (Option.any_eq_true _ _).mp h100
  obtain ⟨d, hd, hds⟩ := (Option.any_eq_true _ _).mp h200
  obtain ⟨hstate, hmuted, hroom, hname⟩ := of_decide_eq_true hcs
  obtain ⟨⟨u, s'⟩, hparse⟩ := Option.isSome_iff_exists.mp hparse
  have hhandled : Handled greetingEnv s ⟨5, 100, 4, greeting.data⟩ c greetingTree.event
      evTypePublicMessage s' :=
    ⟨h5, hc, greeting_decode 5 100, by decide +kernel, hparse⟩
  have hliteral : Literal (guestName 0) :=
    ⟨by decide +kernel, by decide +kernel, by decide +kernel, by decide +kernel⟩
  have hreach := reachable_of_actAll hrun
  have hbody : greetingTree.event.body = some (ofString "hello") := by decide +kernel
  obtain ⟨l, hsent, -, hmem, harrives⟩ := publicMessage_arrives hreach withEzxml_greeting hhandled
    hstate hmuted hname hliteral hbody (by decide +kernel) (by decide +kernel)
  have h6l : 6 ∈ l.map Send.fd :=
    (hmem 6).mpr ⟨by omega, 200, d, h6, hd, (of_decide_eq_true hds).trans hroom.symm⟩
  obtain ⟨m, hm, hfd⟩ := List.mem_map.mp h6l
  obtain ⟨n, r, hmessage, hreads⟩ := harrives m hm
  refine ⟨s, s', m, n, r, hreach, ?_, hfd, hmessage, hreads⟩
  rw [hsent, List.drop_left]
  exact hm

end ArpgServer
