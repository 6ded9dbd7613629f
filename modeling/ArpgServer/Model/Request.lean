import ArpgServer.Model.Ezxml
import ArpgServer.Model.Message

/-!
# Requests (`message.c`)

The buffer `parse_message` inflates a message into, and what it takes from the tree that
`ezxml_parse_str` makes of it.
-/

namespace ArpgServer

open CText

/-- The local `in` behind `uncompress`: it was zeroed before. -/
def inputBuffer (text : Bytes) : Bytes :=
  text ++ List.replicate (tempBufferLength - text.length) 0

/-- The name an attribute is looked up by. -/
def Attr.name : Attr → String
  | .type => "type"
  | .username => "username"
  | .character => "character"
  | .password => "password"
  | .anonymous => "anonymous"
  | .account => "account"
  | .sign => "sign"
  | .timestamp => "timestamp"
  | .roomid => "roomid"
  | .target => "to"
  | .state => "state"
  | .direction => "direction"
  | .x => "x"
  | .y => "y"
  | .doing => "doing"

/-- The attributes of the root tag and the text of its first child `body`. -/
def Ezxml.Xml.event (x : Ezxml.Xml) : Event where
  attr k := Ezxml.ezxmlAttr x (ofString k.name)
  body := (Ezxml.ezxmlChild x (ofString "body")).txt?

/-- The environment of one message, with the parser and the serializer of the source; `none`
where the parser faults. -/
def Env.withEzxml (env : Env) (data : Bytes) : Option Env :=
  match env.uncompress data with
  | none => some env
  | some text => (Ezxml.ezxmlParseStr (inputBuffer text)).map fun r =>
    { env with ezxmlParseStr := fun _ => r.tree.event, ezxmlToxml := fun _ => Ezxml.ezxmlToxml r }

end ArpgServer
