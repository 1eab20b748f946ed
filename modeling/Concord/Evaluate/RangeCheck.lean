import Concord.Grid
import Concord.Standard

/-! Whether the values of a chunk keep to the ranges that the standard gives. What is out of range
    is worth a warning; it is no failure. -/

namespace Concord

/-- What a range is about. -/
inductive RangeCheck where
  | validMin
  | validMax
  | okMinMeanAbs
  | okMaxMeanAbs
  deriving DecidableEq

namespace RangeCheck

def key : RangeCheck → String
  | validMin => "valid_min"
  | validMax => "valid_max"
  | okMinMeanAbs => "ok_min_mean_abs"
  | okMaxMeanAbs => "ok_max_mean_abs"

/-- A value that lies beyond a limit. -/
structure Violation where
  check : RangeCheck
  limit : Double
  found : Double

def Violation.message (v : Violation) : String :=
  v.check.key ++ " = " ++ Decimal.plain v.limit ++ " violated by " ++ Decimal.plain v.found

/-- A value lies beyond the limit of a check. -/
def isBeyond (c : RangeCheck) (value limit : Double) : Bool :=
  match c with
  | validMin | okMinMeanAbs => value < limit
  | validMax | okMaxMeanAbs => limit < value

/-- The violation of a check, if the standard has its limit and the value is beyond it. -/
def violation? (t : Target) (c : RangeCheck) (value : Double) : Option Violation :=
  (t.number? c.key).bind fun limit =>
    if c.isBeyond value limit then some ⟨c, limit, value⟩ else none

/-- The violations among the values of a chunk. A NaN is no value. -/
def violations (t : Target) (g : Grid Double) : List Violation :=
  match g.data.toList.filter fun x => !x.isNaN with
  | [] => []
  | x :: xs =>
    let smallest := xs.foldl (fun a b => if b < a then b else a) x
    let largest := xs.foldl (fun a b => if a < b then b else a) x
    let mean := (x :: xs).foldl (fun total v => total + v.abs) 0 / Double.ofNat (xs.length + 1)
    [(validMin, smallest), (validMax, largest), (okMinMeanAbs, mean), (okMaxMeanAbs, mean)].filterMap
      fun p => violation? t p.1 p.2

end RangeCheck
end Concord
