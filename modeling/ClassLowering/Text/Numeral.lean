namespace ClassLowering.Text

def digits? : List Char → Option Nat
  | [] => none
  | text =>
    if text.all Char.isDigit then
      some (text.foldl (fun n c => 10 * n + (c.toNat - '0'.toNat)) 0)
    else none

def integer? : List Char → Option Int
  | '-' :: text => (digits? text).map fun n => -(n : Int)
  | '+' :: text => (digits? text).map fun n => (n : Int)
  | text => (digits? text).map fun n => (n : Int)

def word? (text : List Char) : Option Int :=
  (integer? text).filter fun n =>
    Int64.minValue.toInt ≤ n && n ≤ Int64.maxValue.toInt

end ClassLowering.Text
