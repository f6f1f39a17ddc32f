/-!
# Constants of nature
-/

namespace ArrayGraph

/-- The base of the natural logarithm. -/
def eulerNumber : Float := Float.ofBits 0x4005bf0a8b145769

/-- The ratio of a circle's circumference to its diameter. -/
def circleRatio : Float := Float.ofBits 0x400921fb54442d18

/-- The constants by name. -/
def constants : List (String × Float) :=
  [("e", eulerNumber), ("pi", circleRatio), ("ua", 42.0)]

/-- The constant of this name. -/
def constant? (name : String) : Option Float := constants.lookup name

end ArrayGraph
