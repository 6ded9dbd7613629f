import ArpgServer.Messages.Templates
import ArpgServer.Xml.RoundTrip

/-!
# The server's events, parsed

The server writes its events by hand, in single quotes and without escaping anything. The
parser it reads its clients with reads every such event as one element with the intended
attributes and body, as long as the texts in it are literal.
-/

namespace ArpgServer

open CText Scan Ezxml

/-! ## The parts of an event -/

def Profile.attrs (p : Profile) : List (String × Bytes) :=
  [("username", p.username), ("character", p.character), ("direction", intText p.direction),
    ("doing", p.doing), ("x", intText p.x), ("y", intText p.y)]

/-- The attributes of an event, in their order. -/
def Notice.attrs : Notice → List (String × Bytes)
  | .pong => [("type", intText evTypePing)]
  | .alreadyLogin =>
      [("type", intText evTypeAuth), ("result", ofString "1"), ("message", ofString "已经登陆")]
  | .authFailure why =>
      [("type", intText evTypeAuthFailure), ("message", ofString why.message)]
  | .authSuccess username usertype =>
      [("type", intText evTypeAuthSuccess), ("username", username),
        ("usertype", intText usertype), ("message", ofString "登陆成功")]
  | .otherLogin =>
      [("type", intText evTypeAuthOtherLogin), ("message", ofString "用户在其他地方登陆")]
  | .changeState username state =>
      [("type", intText evTypeUserChangeState), ("username", username), ("state", intText state)]
  | .changeCharacter username character =>
      [("type", intText evTypeChangeCharacter), ("username", username), ("character", character)]
  | .systemMessage timestamp _ =>
      [("type", intText evTypeSystemMessage), ("timestamp", intText timestamp)]
  | .privateMessage sender target timestamp _ =>
      [("type", intText evTypePrivateMessage), ("from", sender), ("to", target),
        ("timestamp", intText timestamp)]
  | .publicMessage sender timestamp _ =>
      [("type", intText evTypePublicMessage), ("from", sender), ("timestamp", intText timestamp)]
  | .changeRoom roomid name =>
      [("type", intText evTypeChangeRoom), ("roomid", intText roomid),
        ("name", formatString name), ("message", ofString "成功进入房间")]
  | .userLogin profile => ("type", intText evTypeUserLogin) :: profile.attrs
  | .userLogout username => [("type", intText evTypeUserLogout), ("username", username)]
  | .userAdd profile => ("type", intText evTypeUserAdd) :: profile.attrs
  | .roomAdd roomid name num =>
      [("type", intText evTypeRoomAdd), ("roomid", intText roomid), ("name", formatString name),
        ("num", intText num)]
  | .move sender direction x y =>
      [("type", intText evTypeMove), ("from", sender), ("direction", intText direction),
        ("x", intText x), ("y", intText y)]
  | .doing sender action =>
      [("type", intText evTypeDoing), ("from", sender), ("doing", action)]
  | .script _ => []

/-- The body of an event that has one. -/
def Notice.bodyText : Notice → Option Bytes
  | .systemMessage _ body => some body.text
  | .privateMessage _ _ _ body | .publicMessage _ _ body => some body
  | _ => none

/-- How an event without a body ends. -/
def Notice.ending : Notice → Bytes
  | .userAdd _ => ofString " />"
  | _ => ofString "/>"

/-- Everything but the reply of a script is composed by the server. -/
def Notice.Composed (n : Notice) : Prop := ∀ m, n ≠ .script m

theorem Notice.text_eq {n : Notice} (h : n.Composed) :
    n.text = ofString "<event" ++ n.attrs.flatMap (fun a => attrText a.1 a.2) ++
      match n.bodyText with
      | none => n.ending
      | some b => ofString "><body><![CDATA[" ++ b ++ ofString "]]></body></event>" := by
  have hhead : ∀ type, eventHead type = ofString "<event" ++ attrText "type" (intText type) := by
    intro type
    have hopen : ofString "<event type='" =
        ofString "<event" ++ ofString " " ++ ofString "type" ++ ofString "='" := rfl
    simp only [eventHead, attrText, hopen, List.append_assoc]
  cases n with
  | script m => exact absurd rfl (h m)
  | _ =>
    simp [Notice.text, Notice.attrs, Notice.bodyText, Notice.ending, hhead, Profile.text,
      Profile.attrs, bodyTail, List.append_assoc]

/-! ## Literal texts -/

/-- A text that can stand in single quotes and is not changed by the decoder. -/
structure Literal (v : Bytes) : Prop where
  quote : 39 ∉ v
  amp : 38 ∉ v
  zero : 0 ∉ v
  blank : ∀ b ∈ v, isSpace b = true → b = 32

theorem Literal.decode {v : Bytes} (h : Literal v) (rest : Bytes) :
    decode .attribute v rest = some (v, rest) := by
  have hcr : 13 ∉ v := fun hmem => absurd (h.blank 13 hmem rfl) (by decide)
  have hread : Yields (decodeTurn .attribute) v v := by
    have hflat : v.flatMap (fun b => [b]) = v := List.flatMap_singleton' v
    have hword : Yields (decodeTurn .attribute) (v.flatMap fun b => [b])
        (v.flatMap fun b => [b]) := by
      refine .flatMap fun b hb => .of_turn fun rest => ?_
      have hamp : b ≠ 38 := fun he => h.amp (he ▸ hb)
      by_cases hspace : isSpace b = true
      · rw [h.blank b hb hspace]
        rfl
      · exact decodeTurn_other (Or.inl hamp) (fun _ => by simpa using hspace) _
    rwa [hflat] at hword
  exact decode_of_reads hcr hread rest

theorem literal_intText (n : Int) : Literal (intText n) where
  quote := not_mem_intText (by decide) n
  amp := not_mem_intText (by decide) n
  zero := not_mem_intText (by decide) n
  blank := by
    intro b hb hspace
    have hlow : ¬ b < 45 := fun hlt => not_mem_intText hlt n hb
    simp only [isSpace, Bool.or_eq_true, Bool.and_eq_true, decide_eq_true_eq, UInt8.lt_iff_toNat_lt,
      UInt8.le_iff_toNat_le, ← UInt8.toNat_inj, UInt8.reduceToNat] at hspace hlow
    omega

/-! ## CDATA sections -/

theorem decodeText_cdata (s : Bytes) : decodeText .cdata s = some s := by
  have hword : Yields (decodeTurn .cdata) (s.flatMap fun b => [b]) (s.flatMap fun b => [b]) :=
    .flatMap fun b _ => .of_turn fun rest =>
      decodeTurn_other (Or.inr rfl) (fun h => by cases h) _
  rw [List.flatMap_singleton' s] at hword
  rw [decodeText, hword.scan]
  rfl

theorem decode_cdata {rest : Bytes} (hrest : 13 ∉ rest) (s : Bytes) :
    decode .cdata s rest = some (normalize s, rest) := by
  have hlast : passesEnd rest = false := by
    have hne : rest.getLast? ≠ some 13 := fun h => hrest (List.mem_of_getLast? h)
    simp [passesEnd, hne]
  have hbehind : Ezxml.behind s rest = some rest := by
    rw [Ezxml.behind, hlast, normalize_of_not_mem hrest]
    simp
  rw [decode, hbehind, Option.bind_some, decodeText_cdata]
  rfl

/-- The end of a section is found where it was put. -/
theorem search_cdataEnd {body : Bytes} (h : ¬ cdataEnd <:+: body) (rest : Bytes) :
    Search.search cdataEnd (body ++ (cdataEnd ++ rest)) = some (cdataEnd ++ rest) := by
  have hborder : Slots.Borderless cdataEnd := by decide +kernel
  rw [Search.search_eq_some_iff]
  refine ⟨body, rfl, List.prefix_append cdataEnd rest, fun front' rest' hl hpat => ?_⟩
  by_contra hlt
  have hfront : front' <+: body := by
    refine List.prefix_of_prefix_length_le ⟨rest', hl.symm⟩ (List.prefix_append body _) ?_
    omega
  obtain ⟨x, rfl⟩ := hfront
  have hx : x ≠ [] := by
    rintro rfl
    simp at hlt
  have hinside : ¬ cdataEnd <:+: x := fun hin => h (hin.trans (List.suffix_append front' x).isInfix)
  rw [List.append_assoc, List.append_cancel_left_eq] at hl
  exact hborder.not_prefix hinside hx (hl ▸ hpat)

variable {e : UInt8} {p : Parse} {body rest : Bytes}

theorem charContent_cdata (hrest : 13 ∉ rest) :
    charContent p .cdata body rest = some (p.addText (normalize body), rest) := by
  unfold charContent Parse.addText
  cases hstack : p.stack with
  | nil => rfl
  | cons top below =>
    by_cases hempty : body = []
    · subst hempty
      have hnil : normalize [] = [] := rfl
      simp only [hnil, if_true, List.append_nil, ← hstack]
    · simp only [if_neg hempty, decode_cdata hrest, Option.map_some]

theorem markup_cdata (hbody : ¬ cdataEnd <:+: body) (hrest : 13 ∉ rest) :
    markup e p (ofString "![CDATA[" ++ (body ++ (cdataEnd ++ rest))) =
      some (.next (p.addText (normalize body)) (62 :: rest)) := by
  have hcdata : ofString "![CDATA[" = [33, 91, 67, 68, 65, 84, 65, 91] := rfl
  have hslash : ofString "/" = [47] := rfl
  have hcomment : ofString "!--" = [33, 45, 45] := rfl
  have hend : cdataEnd = [93, 93, 62] := rfl
  have hstart : isNameStart 33 = false := rfl
  have hsearch := search_cdataEnd hbody rest
  have htake : (body ++ (cdataEnd ++ rest)).take
      ((body ++ (cdataEnd ++ rest)).length - (cdataEnd ++ rest).length) = body := by
    rw [List.length_append, Nat.add_sub_cancel, List.take_left]
  have hdrop : (cdataEnd ++ rest).drop 2 = 62 :: rest := by
    rw [hend]
    rfl
  have hcr : 13 ∉ 62 :: rest := by simp [hrest]
  rw [markup, if_neg (by rw [hcdata]; simp [hstart]), if_neg (by rw [hcdata, hslash]; simp),
    if_neg (by rw [hcdata, hcomment]; simp), if_pos (List.prefix_append _ _)]
  have hlen : (ofString "![CDATA[").length = 8 := by rw [hcdata]; rfl
  rw [← hlen, List.drop_left, cdata]
  have hpat : ofString "]]>" = cdataEnd := rfl
  rw [hpat, hsearch]
  simp only [htake, hdrop, charContent_cdata hcr, Option.map_some]

theorem resume_cdata (hbody : ¬ cdataEnd <:+: body) (hrest : 13 ∉ rest) :
    resume (run e) p (ofString "<![CDATA[" ++ (body ++ (cdataEnd ++ rest))) =
      resume (run e) (p.addText (normalize body)) rest := by
  have hopen : ofString "<![CDATA[" = 60 :: ofString "![CDATA[" := rfl
  rw [hopen, List.cons_append, resume_markup, run_eq, markup_cdata hbody hrest]
  rfl

/-! ## Whole events -/

/-- The tree an event is read as. -/
def Notice.tree (n : Notice) : Xml :=
  let body := match n.bodyText with
    | none => .null
    | some body => .tag (ofString "body") [] (normalize body) 0 .null .null
  .tag (ofString "event") (n.attrs.map fun a => (ofString a.1, some a.2)) [] 0 body .null

/-- The names the server gives the attributes of its events. -/
def attrNames : List String :=
  ["type", "result", "message", "username", "usertype", "state", "character", "timestamp", "from",
    "to", "roomid", "name", "num", "direction", "doing", "x", "y"]

theorem mem_attrNames {n : Notice} {a : String × Bytes} (h : a ∈ n.attrs) : a.1 ∈ attrNames := by
  have hprofile : ∀ p : Profile, ∀ x ∈ p.attrs, x.1 ∈ attrNames := by
    intro p x hx
    simp only [Profile.attrs, List.mem_cons, List.not_mem_nil, or_false] at hx
    rcases hx with rfl | rfl | rfl | rfl | rfl | rfl <;> simp [attrNames]
  cases n with
  | userLogin p | userAdd p =>
    rcases List.mem_cons.mp h with rfl | h
    · simp [attrNames]
    · exact hprofile p a h
  | script m => cases h
  | _ =>
    simp only [Notice.attrs, List.mem_cons, List.not_mem_nil, or_false] at h
    rcases h with rfl | rfl | rfl | rfl | rfl <;> simp [attrNames]

theorem attrName_of_mem {name : String} (h : name ∈ attrNames) : AttrName [] (ofString name) := by
  have hchars : ∀ name ∈ attrNames, ∀ b ∈ ofString name, endsAttrName b = false := by
    decide +kernel
  have hbegins : ∀ name ∈ attrNames, ((ofString name).head?.map isSpace).getD false = false := by
    decide +kernel
  have hzero : ∀ name ∈ attrNames, 0 ∉ ofString name := by decide +kernel
  refine ⟨hchars name h, fun b hb => ?_, fun _ => hzero name h⟩
  simpa [hb] using hbegins name h

def eventSpelling (a : String × Bytes) : Spelling := ⟨ofString a.1, 39, a.2, a.2⟩

variable {n : Notice}

theorem eventSpelling_ok (h : ∀ a ∈ n.attrs, Literal a.2) :
    ∀ a ∈ n.attrs.map eventSpelling, a.Ok := by
  intro a ha
  obtain ⟨x, hx, rfl⟩ := List.mem_map.mp ha
  exact ⟨attrName_of_mem (mem_attrNames hx), rfl, (h x hx).quote, (h x hx).decode⟩

theorem code_eventSpelling (a : String × Bytes) : (eventSpelling a).code = attrText a.1 a.2 := by
  have hblank : ofString " " = [32] := rfl
  have hopen : ofString "='" = [61, 39] := rfl
  have hclose : ofString "'" = [39] := rfl
  simp [attrText, hblank, hopen, hclose, Spelling.code, eventSpelling]

theorem tagName_event : TagName [] (ofString "event") :=
  ⟨by decide +kernel, by decide +kernel, fun _ => by decide +kernel⟩

theorem tagName_body : TagName [] (ofString "body") :=
  ⟨by decide +kernel, by decide +kernel, fun _ => by decide +kernel⟩

/-- The attributes of an event, and what follows them. -/
theorem newTag_event (h : ∀ a ∈ n.attrs, Literal a.2) {tail : Bytes} {b : UInt8} {s : Bytes}
    (hhead : ∀ c, tail.head? = some c → endsTagName c = true)
    (htail : tail.dropWhile isSpace = b :: s) (hb : b = 47 ∨ b = 62) :
    markup e Parse.new (ofString "event" ++ (n.attrs.flatMap (fun a => attrText a.1 a.2) ++ tail)) =
      some (tagEnd e Parse.new (ofString "event") (n.attrs.map fun a => (ofString a.1, some a.2))
        (b :: s)) := by
  have hcode : n.attrs.flatMap (fun a => attrText a.1 a.2) =
      (n.attrs.map eventSpelling).flatMap Spelling.code := by
    rw [List.flatMap_map]
    exact List.flatMap_congr fun a _ => (code_eventSpelling a).symm
  have hattr : (n.attrs.map eventSpelling).map Spelling.attr =
      n.attrs.map fun a => (ofString a.1, some a.2) := by
    rw [List.map_map]
    rfl
  rw [markup_newTag tagName_event, hcode,
    newTag_spelled rfl tagName_event (eventSpelling_ok h) hhead htail hb, hattr]

/-- An event without a body. -/
theorem run_event (h : ∀ a ∈ n.attrs, Literal a.2) {tail : Bytes}
    (hhead : ∀ c, tail.head? = some c → endsTagName c = true)
    (htail : tail.dropWhile isSpace = [47, 62]) :
    run e Parse.new (ofString "event" ++ (n.attrs.flatMap (fun a => attrText a.1 a.2) ++ tail)) =
      some { tree := .tag (ofString "event") (n.attrs.map fun a => (ofString a.1, some a.2)) [] 0
               .null .null
             pi := [], err := none } := by
  rw [run_eq, newTag_event h hhead htail (Or.inl rfl)]
  simp [tagEnd, openTag, closeTag, Parse.new, Open.toXml, resume, Parse.finish, Parse.root,
    Parse.closed]

/-- The tag of a body, up to its section. -/
theorem run_body (stack : List Open) (pi : Instructions) (s : Bytes) :
    run e ⟨stack, .null, pi⟩ (ofString "body" ++ 62 :: s) =
      resume (run e) (openTag ⟨stack, .null, pi⟩ (ofString "body") []) s := by
  have hend : ∀ c, (62 :: s).head? = some c → endsTagName c = true := by
    intro c hc
    cases hc
    rfl
  have htag := @newTag_spelled [] 62 s (62 :: s) e ⟨stack, .null, pi⟩ (ofString "body")
    (by simp [Parse.closed]) tagName_body (fun _ h => by cases h) hend rfl (Or.inr rfl)
  rw [List.flatMap_nil, List.nil_append] at htag
  rw [run_eq, markup_newTag tagName_body, htag]
  rfl

/-- A closing tag behind the text before it. -/
theorem resume_closingTag {name : Bytes} (hname : TagName [] name)
    (hclose : closeTag p name = some p') (s : Bytes) :
    resume (run e) p (60 :: 47 :: (name ++ 62 :: s)) = resume (run e) p' s := by
  rw [resume_markup, run_eq, markup_closingTag hname hclose]
  rfl

/-- An event with a body. -/
theorem run_event_body (h : ∀ a ∈ n.attrs, Literal a.2) (hbody : ¬ cdataEnd <:+: body) :
    run e Parse.new (ofString "event" ++ (n.attrs.flatMap (fun a => attrText a.1 a.2) ++
        62 :: 60 :: (ofString "body" ++ 62 :: (ofString "<![CDATA[" ++ (body ++ (cdataEnd ++
          60 :: 47 :: (ofString "body" ++ 62 :: 60 :: 47 :: (ofString "event" ++ [62])))))))) =
      some { tree := .tag (ofString "event") (n.attrs.map fun a => (ofString a.1, some a.2)) [] 0
               (.tag (ofString "body") [] (normalize body) 0 .null .null) .null
             pi := [], err := none } := by
  have hend : ∀ s : Bytes, ∀ c, (62 :: s).head? = some c → endsTagName c = true := by
    intro s c hc
    cases hc
    rfl
  have hcr : 13 ∉ 60 :: 47 :: (ofString "body" ++ 62 :: 60 :: 47 ::
      (ofString "event" ++ [62])) := by decide +kernel
  rw [run_eq, newTag_event h (hend _) rfl (Or.inr rfl), Option.bind_some]
  change resume (run e) _ (60 :: _) = _
  rw [resume_markup]
  simp only [openTag, Parse.new]
  rw [run_body, resume_cdata hbody hcr, resume_closingTag tagName_body rfl,
    resume_closingTag tagName_event rfl]
  simp [resume, Parse.finish, Parse.root, Parse.closed, Parse.addText, Open.toXml, Open.addChild,
    openTag, Xml.append]

/-- The texts of an event stay in their places. -/
structure Notice.Literal (n : Notice) : Prop where
  composed : n.Composed
  attrs : ∀ a ∈ n.attrs, ArpgServer.Literal a.2
  body : ∀ body, n.bodyText = some body → 0 ∉ body ∧ ¬ cdataEnd <:+: body

theorem Notice.ending_eq (n : Notice) : n.ending = [32, 47, 62] ∨ n.ending = [47, 62] := by
  have hblank : ofString " />" = [32, 47, 62] := rfl
  have hplain : ofString "/>" = [47, 62] := rfl
  cases n with
  | userAdd profile => exact Or.inl hblank
  | _ => exact Or.inr hplain

theorem Notice.Literal.zero (h : n.Literal) : 0 ∉ n.text := by
  have hhead : 0 ∉ ofString "<event" := by decide +kernel
  have hnames : ∀ name ∈ attrNames, 0 ∉ ofString " " ++ ofString name ++ ofString "='" := by
    decide +kernel
  have hquote : 0 ∉ ofString "'" := by decide +kernel
  have hattrs : 0 ∉ n.attrs.flatMap (fun a => attrText a.1 a.2) := by
    intro hmem
    obtain ⟨a, ha, hzero⟩ := List.mem_flatMap.mp hmem
    have hname := hnames a.1 (mem_attrNames ha)
    have hvalue := (h.attrs a ha).zero
    rw [attrText, List.mem_append, List.mem_append] at hzero
    rcases hzero with (hzero | hzero) | hzero
    · exact hname hzero
    · exact hvalue hzero
    · exact hquote hzero
  have hending : 0 ∉ n.ending := by
    rcases n.ending_eq with he | he <;> rw [he] <;> decide
  have hopen : 0 ∉ ofString "><body><![CDATA[" := by decide +kernel
  have hclose : 0 ∉ ofString "]]></body></event>" := by decide +kernel
  rw [Notice.text_eq h.composed, List.mem_append, List.mem_append]
  rintro ((hzero | hzero) | hzero)
  · exact hhead hzero
  · exact hattrs hzero
  · cases hbody : n.bodyText with
    | none =>
      rw [hbody] at hzero
      exact hending hzero
    | some body =>
      rw [hbody] at hzero
      simp only [List.mem_append] at hzero
      rcases hzero with (hzero | hzero) | hzero
      · exact hopen hzero
      · exact (h.body body hbody).1 hzero
      · exact hclose hzero

theorem Notice.Literal.run (h : n.Literal) : ∃ s, n.text = 60 :: s ∧
    ∀ e, Ezxml.run e Parse.new s = some { tree := n.tree, pi := [], err := none } := by
  have hhead : ofString "<event" = 60 :: ofString "event" := rfl
  refine ⟨n.text.drop 1, ?_, fun e => ?_⟩
  · rw [Notice.text_eq h.composed, hhead]
    rfl
  have htext := Notice.text_eq h.composed
  cases hbody : n.bodyText with
  | none =>
    have hend : ∀ c, n.ending.head? = some c → endsTagName c = true := by
      intro c hc
      rcases n.ending_eq with he | he <;>
      · rw [he] at hc
        cases hc
        rfl
    have htail : n.ending.dropWhile isSpace = [47, 62] := by
      rcases n.ending_eq with he | he <;> rw [he] <;> rfl
    rw [hbody, hhead] at htext
    have hrun := @run_event e n h.attrs n.ending hend htail
    rw [htext, Notice.tree, hbody, ← hrun]
    simp only [List.cons_append, List.append_assoc, List.drop_one, List.tail_cons]
  | some body =>
    have hopen : ofString "><body><![CDATA[" =
        62 :: 60 :: (ofString "body" ++ 62 :: ofString "<![CDATA[") := rfl
    have hclose : ofString "]]></body></event>" = cdataEnd ++
        60 :: 47 :: (ofString "body" ++ 62 :: 60 :: 47 :: (ofString "event" ++ [62])) := by
      decide +kernel
    rw [hbody, hhead] at htext
    have hrun := @run_event_body e body n h.attrs (h.body body hbody).2
    rw [htext, Notice.tree, hbody, ← hrun, hopen, hclose]
    simp only [List.cons_append, List.append_assoc, List.drop_one, List.tail_cons]

/-- Every event whose texts are literal and that fits its buffer is read, by the parser the
server reads its clients with, as the element with these attributes and this body. -/
theorem ezxmlParseStr_formatted (h : n.Literal) (hfits : n.text.length < maxBufferLength)
    (junk : Bytes) :
    ezxmlParseStr (n.formatted ++ 0 :: junk) = some { tree := n.tree, pi := [], err := none } := by
  have hformatted : n.formatted = n.text := by
    rw [Notice.formatted, List.take_of_length_le (by omega)]
  obtain ⟨s, hs, hrun⟩ := h.run
  have hutf : str2utf8 (n.text ++ 0 :: junk) = n.text ++ 0 :: junk := by
    rw [hs]
    rfl
  obtain ⟨e, he⟩ := exists_parseText h.zero junk hutf
  rw [hformatted, he, hs, parseText_markup, hrun]

theorem ezxmlParseStr_formatted_dance :
    ezxmlParseStr
      ((Notice.doing (ofString "alice") (ofString "dance < sing")).formatted ++ [0, 60]) =
      some { tree := (Notice.doing (ofString "alice") (ofString "dance < sing")).tree, pi := []
             err := none } := by
  refine ezxmlParseStr_formatted ⟨by simp [Notice.Composed], ?_, by simp [Notice.bodyText]⟩
    (by decide +kernel) [60]
  intro a ha
  simp only [Notice.attrs, List.mem_cons, List.not_mem_nil, or_false] at ha
  rcases ha with rfl | rfl | rfl
  · exact literal_intText evTypeDoing
  · exact ⟨by decide +kernel, by decide +kernel, by decide +kernel, by decide +kernel⟩
  · exact ⟨by decide +kernel, by decide +kernel, by decide +kernel, by decide +kernel⟩

end ArpgServer
