import DesignTokens.Color
import DesignTokens.Value.Amount

/-! Colours made lighter or darker. The colour is taken to hue, lightness and saturation, its
lightness is moved within bounds, and it is taken back. -/
namespace DesignTokens.Color

structure Hls where
  hue : Binary64
  lightness : Binary64
  saturation : Binary64

namespace Hls

def whole (n : Nat) : Binary64 := .ofNat n

def half : Binary64 := whole 1 / whole 2

def third : Binary64 := whole 1 / whole 3

def sixth : Binary64 := whole 1 / whole 6

def twoThirds : Binary64 := whole 2 / whole 3

/-- Hue, lightness and saturation of three channels. A grey has neither hue nor saturation. -/
def ofChannels (r g b : Binary64) : Hls :=
  let top := (r.max g).max b
  let bottom := (r.min g).min b
  let sum := top + bottom
  let range := top - bottom
  let lightness := sum / whole 2
  if bottom.same top then ⟨whole 0, lightness, whole 0⟩ else
  let saturation :=
    if lightness.le half then range / sum else range / (whole 2 - top - bottom)
  let away (x : Binary64) := (top - x) / range
  let sector :=
    if r.same top then away b - away g
    else if g.same top then whole 2 + away r - away b
    else whole 4 + away g - away r
  ⟨(sector / whole 6).fract, lightness, saturation⟩

/-- One channel: it rises over a sixth of the circle, stays, falls again and stays. -/
def channel (low high hue : Binary64) : Binary64 :=
  let hue := hue.fract
  if hue.lt sixth then low + (high - low) * hue * whole 6
  else if hue.lt half then high
  else if hue.lt twoThirds then low + (high - low) * (twoThirds - hue) * whole 6
  else low

def toChannels (c : Hls) : Binary64 × Binary64 × Binary64 :=
  let l := c.lightness
  if c.saturation.same (whole 0) then (l, l, l) else
  let high :=
    if l.le half then l * (whole 1 + c.saturation) else l + c.saturation - l * c.saturation
  let low := whole 2 * l - high
  (channel low high (c.hue + third), channel low high c.hue, channel low high (c.hue - third))

end Hls

def part (n : Int) : Binary64 := .ofInt n / .ofNat 255

/-- A part of one as a channel. -/
def byte? (x : Binary64) : Except Failure Int :=
  match (x * .ofNat 255).round? with
  | some n => .ok n
  | none => .error (.value .channelNotANumber)

/-- The colour with its lightness moved by an amount, within zero and one. -/
def lightenBy (c : Color) (delta : Binary64) : Except Failure Color := do
  let hls := Hls.ofChannels (part c.red) (part c.green) (part c.blue)
  let moved := (hls.lightness + delta).clamp (.ofNat 0) (.ofNat 1)
  let (r, g, b) := Hls.toChannels { hls with lightness := moved }
  let red ← byte? r
  let green ← byte? g
  let blue ← byte? b
  return ⟨red, green, blue, c.alpha⟩

def readColor (text : String) : Except Failure Color :=
  match read text with
  | .ok c => .ok c
  | .error e => .error (.value e)

/-- The canonical text of a colour with its alpha set. -/
def setAlpha (text : String) (amount : Value) : Except Failure String := do
  let c ← readColor text
  let x ← amount.amount
  return (c.withAlpha x).text

/-- The canonical text of a colour with its lightness moved. -/
def moveLightness (text : String) (delta : Value) : Except Failure String := do
  let c ← readColor text
  let x ← delta.amount
  return (← c.lightenBy x).text

def channelsText (red green blue : Int) (alpha : Value) : Except Failure String :=
  match alpha.number? with
  | some (.inr x) => .ok (text ⟨red, green, blue, x⟩)
  | some (.inl i) =>
    if 1 ≤ i then .ok (text ⟨red, green, blue, .ofNat 1⟩)
    else (Value.amountOfInt i).map fun x => text ⟨red, green, blue, x⟩
  | none => .error (.kind (.unsuitable alpha.kind))

end DesignTokens.Color
