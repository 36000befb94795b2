import CommonLut.Operator.Schema

/-!
# Channels

Curve parameters may be given for one channel. Those for a channel win over those for all.

Main definitions: `Channel`, `Channel.select?`.
-/

namespace CommonLut

/-- The channels of a colour. -/
inductive Channel where
  | red
  | green
  | blue
deriving DecidableEq, Repr

namespace Channel

/-- The letter of a channel. -/
def token : Channel → String
  | red => "R"
  | green => "G"
  | blue => "B"

/-- The place of the channel in a pixel. -/
def index : Channel → Nat
  | red => 0
  | green => 1
  | blue => 2

/-- The channel with a token. -/
def read (token : String) : Except Error Channel :=
  readToken "channel" ([red, green, blue].map fun c => (c.token, c)) token

/-- The first entry for the channel at an index, else the first one for all channels. -/
def select? {α : Type} (channelOf : α → Option Channel) (entries : List α) (index : Nat) :
    Option α :=
  (entries.find? fun a => (channelOf a).map Channel.index == some index).or
    (entries.find? fun a => (channelOf a).isNone)

end Channel

end CommonLut
