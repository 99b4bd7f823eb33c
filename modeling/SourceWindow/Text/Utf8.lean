import SourceWindow.Text

/-!
Decoding of UTF-8 that puts one replacement character in place of each maximal part of the bytes
that begins like a character and cannot be continued to one.
-/

set_option autoImplicit false

namespace SourceWindow.Utf8

def replacement : Char := '\uFFFD'

def isContinuation (b : UInt8) : Bool := 0x80 ≤ b && b ≤ 0xBF

def secondOfThree (lead second : UInt8) : Bool :=
  if lead == 0xE0 then 0xA0 ≤ second && second ≤ 0xBF
  else if lead == 0xED then 0x80 ≤ second && second ≤ 0x9F
  else isContinuation second

def secondOfFour (lead second : UInt8) : Bool :=
  if lead == 0xF0 then 0x90 ≤ second && second ≤ 0xBF
  else if lead == 0xF4 then 0x80 ≤ second && second ≤ 0x8F
  else isContinuation second

def assemble (lead : Nat) (rest : List UInt8) : Char :=
  Char.ofNat (rest.foldl (fun n b => n * 64 + b.toNat % 64) lead)

/-- The character that the bytes begin with, and how many bytes it takes after the first. -/
def next (lead : UInt8) (rest : List UInt8) : Char × Nat :=
  if lead < 0x80 then (Char.ofNat lead.toNat, 0)
  else if 0xC2 ≤ lead && lead ≤ 0xDF then
    match rest with
    | a :: _ =>
      if isContinuation a then (assemble (lead.toNat % 32) [a], 1) else (replacement, 0)
    | [] => (replacement, 0)
  else if 0xE0 ≤ lead && lead ≤ 0xEF then
    match rest with
    | a :: b :: _ =>
      if !secondOfThree lead a then (replacement, 0)
      else if !isContinuation b then (replacement, 1)
      else (assemble (lead.toNat % 16) [a, b], 2)
    | [a] => (replacement, if secondOfThree lead a then 1 else 0)
    | [] => (replacement, 0)
  else if 0xF0 ≤ lead && lead ≤ 0xF4 then
    match rest with
    | a :: b :: c :: _ =>
      if !secondOfFour lead a then (replacement, 0)
      else if !isContinuation b then (replacement, 1)
      else if !isContinuation c then (replacement, 2)
      else (assemble (lead.toNat % 8) [a, b, c], 3)
    | [a, b] =>
      (replacement, if !secondOfFour lead a then 0 else if isContinuation b then 2 else 1)
    | [a] => (replacement, if secondOfFour lead a then 1 else 0)
    | [] => (replacement, 0)
  else (replacement, 0)

def decode : List UInt8 → Text
  | [] => []
  | lead :: rest =>
    let (c, taken) := next lead rest
    c :: decode (rest.drop taken)
termination_by bytes => bytes.length

end SourceWindow.Utf8
