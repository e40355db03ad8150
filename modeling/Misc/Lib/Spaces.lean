import Mathlib.Data.List.Basic

namespace Misc.Lib
set_option autoImplicit true

/-- The code points of `unicode.IsSpace` in UTF-8. -/
def spaces : List (List UInt8) :=
  [[0x09], [0x0A], [0x0B], [0x0C], [0x0D], [0x20], [0xC2, 0x85], [0xC2, 0xA0],
    [0xE1, 0x9A, 0x80]] ++ (List.range 11).map (fun k => [0xE2, 0x80, .ofNat (0x80 + k)]) ++
    [[0xE2, 0x80, 0xA8], [0xE2, 0x80, 0xA9], [0xE2, 0x80, 0xAF],
      [0xE2, 0x81, 0x9F], [0xE3, 0x80, 0x80]]

/-- Drops at most `n` of these from the front. -/
def trimBy (cut : List (List UInt8)) : Nat → List UInt8 → List UInt8
  | 0, s => s
  | n + 1, s =>
    match cut.find? (·.isPrefixOf s) with
    | none => s
    | some c => trimBy cut n (s.drop c.length)

/-- `strings.TrimSpace`. -/
def trimSpace (s : List UInt8) : List UInt8 :=
  let s := trimBy spaces s.length s
  (trimBy (spaces.map .reverse) s.length s.reverse).reverse

/-- There is nothing but white space in a text. -/
def isWhite (s : List UInt8) : Bool := trimBy spaces s.length s = []

end Misc.Lib
