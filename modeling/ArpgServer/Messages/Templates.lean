import ArpgServer.Library.Slots
import ArpgServer.Model.Protocol

/-!
# Templates

The six events that show texts of clients are templates: the number of the event, attributes
up to their closing quotes, and a body up to the end of its CDATA section. An event is put
into a buffer, which cuts it, and nothing in it is escaped.
-/

namespace ArpgServer

open CText Slots

def quote : Bytes := ofString "'"
def cdataEnd : Bytes := ofString "]]>"

/-- `<event type='%d'`. -/
def typeSlot : Slot UInt8 := ⟨ofString "<event type='", quote⟩

/-- ` name='%s'`. -/
def attrSlot (name : String) : Slot UInt8 := ⟨ofString " " ++ ofString name ++ ofString "='", quote⟩

/-- `><body><![CDATA[%s]]>`. -/
def bodySlot : Slot UInt8 := ⟨ofString "><body><![CDATA[", cdataEnd⟩

def Profile.fields (p : Profile) : List (Slot UInt8 × Bytes) :=
  [(attrSlot "username", p.username), (attrSlot "character", p.character),
    (attrSlot "direction", intText p.direction), (attrSlot "doing", p.doing),
    (attrSlot "x", intText p.x), (attrSlot "y", intText p.y)]

/-- The slots of an event that shows texts of clients, and how it ends. -/
def Notice.template : Notice → Option (List (Slot UInt8 × Bytes) × Bytes)
  | .publicMessage sender timestamp body =>
      some ([(typeSlot, intText evTypePublicMessage), (attrSlot "from", sender),
        (attrSlot "timestamp", intText timestamp), (bodySlot, body)], ofString "</body></event>")
  | .privateMessage sender target timestamp body =>
      some ([(typeSlot, intText evTypePrivateMessage), (attrSlot "from", sender),
        (attrSlot "to", target), (attrSlot "timestamp", intText timestamp), (bodySlot, body)],
        ofString "</body></event>")
  | .userLogin profile =>
      some ((typeSlot, intText evTypeUserLogin) :: profile.fields, ofString "/>")
  | .userAdd profile =>
      some ((typeSlot, intText evTypeUserAdd) :: profile.fields, ofString " />")
  | .changeCharacter username character =>
      some ([(typeSlot, intText evTypeChangeCharacter), (attrSlot "username", username),
        (attrSlot "character", character)], ofString "/>")
  | .doing sender action =>
      some ([(typeSlot, intText evTypeDoing), (attrSlot "from", sender),
        (attrSlot "doing", action)], ofString "/>")
  | _ => none

variable {n : Notice} {fields : List (Slot UInt8 × Bytes)} {tail : Bytes}

theorem Notice.text_of_template (h : n.template = some (fields, tail)) :
    n.text = Slots.text tail fields := by
  have hend : ofString "]]></body></event>" = cdataEnd ++ ofString "</body></event>" := by
    decide +kernel
  cases n <;> cases h <;>
  simp only [Notice.text, Profile.text, Profile.fields, eventHead, attrText, bodyTail, hend,
    Slots.text, typeSlot, attrSlot, bodySlot, quote, List.append_assoc]

/-- The buffer the event is formatted into. -/
def Notice.formatted (n : Notice) : Bytes := n.text.take (maxBufferLength - 1)

/-- A text is one complete event of its type, and gives its texts back. -/
def Notice.ReadFrom (n : Notice) (t : Bytes) : Prop :=
  ∃ fields tail, n.template = some (fields, tail) ∧
    Slots.read tail (fields.map Prod.fst) t = some fields

/-- No attribute holds a quote and no body the end of a CDATA section. -/
def Notice.Plain : Notice → Prop
  | .publicMessage sender _ body => 39 ∉ sender ∧ ¬ cdataEnd <:+: body
  | .privateMessage sender target _ body => 39 ∉ sender ∧ 39 ∉ target ∧ ¬ cdataEnd <:+: body
  | .userLogin profile | .userAdd profile =>
      39 ∉ profile.username ∧ 39 ∉ profile.character ∧ 39 ∉ profile.doing
  | .changeCharacter username character => 39 ∉ username ∧ 39 ∉ character
  | .doing sender action => 39 ∉ sender ∧ 39 ∉ action
  | _ => True

theorem quote_infix_iff (v : Bytes) : quote <:+: v ↔ 39 ∈ v := by
  have hquote : quote = [39] := by decide +kernel
  rw [hquote, List.singleton_infix_iff]

/-- The numbers are plain. -/
theorem Notice.clean_iff (h : n.template = some (fields, tail)) : Clean fields ↔ n.Plain := by
  have hnumber : ∀ k, 39 ∉ intText k := not_mem_intText (by decide)
  cases n <;> cases h <;>
  simp [Clean, Notice.Plain, Profile.fields, typeSlot, attrSlot, bodySlot, quote_infix_iff, hnumber]

theorem borderless_of_template (h : n.template = some (fields, tail)) :
    ∀ x ∈ fields, Borderless x.1.stop := by
  have hquote : Borderless quote := by decide +kernel
  have hcdata : Borderless cdataEnd := by decide +kernel
  cases n <;> cases h <;>
  simp [Profile.fields, typeSlot, attrSlot, bodySlot, hquote, hcdata]

/-- The texts come back from a buffer exactly when they are plain and the event fits. -/
theorem Notice.readFrom_formatted_iff (hn : n.template.isSome) :
    n.ReadFrom n.formatted ↔ n.Plain ∧ n.text.length < maxBufferLength := by
  obtain ⟨⟨fields, tail⟩, h⟩ := Option.isSome_iff_exists.mp hn
  have hread : Slots.read tail (fields.map Prod.fst) n.formatted = some fields ↔
      n.Plain ∧ n.text.length ≤ maxBufferLength - 1 := by
    rw [Notice.formatted, Notice.text_of_template h, ← Notice.clean_iff h]
    exact read_take_iff (borderless_of_template h) (maxBufferLength - 1)
  constructor
  · rintro ⟨f, t, hf, hreads⟩
    rw [h] at hf
    cases hf
    obtain ⟨hplain, hlen⟩ := hread.mp hreads
    refine ⟨hplain, ?_⟩
    unfold maxBufferLength at hlen ⊢
    omega
  · rintro ⟨hplain, hlen⟩
    exact ⟨fields, tail, h, hread.mpr ⟨hplain, by omega⟩⟩

end ArpgServer
