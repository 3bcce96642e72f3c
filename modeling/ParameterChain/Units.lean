/-
# Units

A unit symbol belongs to a category (`Length`, `Dose`, …) and has a factor: the
size of the unit in internal units.  Internally a length is in millimetres, a
time in nanoseconds, an energy in MeV, a charge in multiples of the positron's,
an angle in radian, a temperature in kelvin and an amount in mole, so these have
factor 1 and every other factor is computed from theirs.  The factors are
computed in double precision, so the order of the operations belongs to their
values.

The table is the base units followed by the rates: each unit of four categories
per unit of time, and inverse times.
-/

namespace ParameterChain

/-- A unit symbol with its category and the size of the unit. -/
structure MeasureUnit where
  symbol : String
  category : String
  factor : Float

namespace MeasureUnit

/-! ## Sizes of the base units -/

def second : Float := 1.0e9
def metre : Float := 1000.0
def centimetre : Float := 10.0
def elementaryCharge : Float := 1.602176634e-19
def coulomb : Float := 1.0 / elementaryCharge
def joule : Float := 1.0 / (elementaryCharge * 1.0e6)
def kilogram : Float := joule * second * second / (metre * metre)
def gram : Float := 1.0e-3 * kilogram
def gray : Float := joule / kilogram
def volt : Float := 1.0e-6
def tesla : Float := volt * second / (metre * metre)
def becquerel : Float := 1.0 / second
def pi : Float := 3.141592653589793

/-- Grams per cubic centimetre. -/
def gramPerCubicCentimetre : Float := gram / (centimetre * centimetre * centimetre)

/-! ## The table -/

/-- The categories with their units. -/
def baseUnits : List (String × List (String × Float)) := [
  ("Length", [("km", 1.0e6), ("m", metre), ("cm", centimetre), ("mm", 1.0), ("um", 1.0e-3),
    ("nm", 1.0e-6), ("angstrom", 1.0e-7), ("fm", 1.0e-12)]),
  ("Surface", [("km2", 1.0e12), ("m2", metre * metre), ("cm2", centimetre * centimetre),
    ("mm2", 1.0), ("um2", 1.0e-6), ("nm2", 1.0e-12)]),
  ("Volume", [("km3", 1.0e18), ("m3", metre * metre * metre),
    ("cm3", centimetre * centimetre * centimetre), ("mm3", 1.0), ("um3", 1.0e-9),
    ("nm3", 1.0e-18), ("L", 1.0e6), ("dL", 1.0e5), ("cL", 1.0e4), ("mL", 1.0e3)]),
  ("Angle", [("rad", 1.0), ("mrad", 1.0e-3), ("deg", pi / 180.0)]),
  ("Solid angle", [("sr", 1.0)]),
  ("Time", [("s", second), ("ms", 1.0e-3 * second), ("us", 1.0e-6 * second), ("ns", 1.0),
    ("ps", 1.0e-3), ("min", 60.0 * second), ("h", 3600.0 * second), ("d", 86400.0 * second),
    ("y", 365.0 * 86400.0 * second)]),
  ("Frequency", [("Hz", 1.0 / second), ("kHz", 1.0e3 / second), ("MHz", 1.0e6 / second)]),
  ("Energy", [("eV", 1.0e-6), ("keV", 1.0e-3), ("MeV", 1.0), ("GeV", 1.0e3), ("TeV", 1.0e6),
    ("PeV", 1.0e9), ("J", joule)]),
  ("Mass", [("kg", kilogram), ("g", gram), ("mg", 1.0e-3 * gram)]),
  ("Volumic Mass", [("g/cm3", gramPerCubicCentimetre),
    ("mg/cm3", 1.0e-3 * gram / (centimetre * centimetre * centimetre)),
    ("kg/m3", kilogram / (metre * metre * metre))]),
  ("Dose", [("Gy", gray), ("cGy", 1.0e-2 * gray), ("mGy", 1.0e-3 * gray),
    ("uGy", 1.0e-6 * gray), ("Sv", gray)]),
  ("Electric charge", [("e+", 1.0), ("C", coulomb)]),
  ("Electric potential", [("V", volt), ("kV", 1.0e3 * volt), ("MV", 1.0e6 * volt)]),
  ("Magnetic flux density", [("T", tesla), ("kG", 1.0e-1 * tesla), ("G", 1.0e-4 * tesla)]),
  ("Temperature", [("K", 1.0)]),
  ("Amount of substance", [("mol", 1.0)]),
  ("Activity", [("Bq", becquerel), ("kBq", 1.0e3 * becquerel), ("MBq", 1.0e6 * becquerel),
    ("GBq", 1.0e9 * becquerel), ("Ci", 3.7e10 * becquerel), ("mCi", 3.7e7 * becquerel),
    ("uCi", 3.7e4 * becquerel)]),
  ("Molar mass", [("g/mole", gram)]),
  ("Magnetic field gradient", [("T/mm", tesla), ("T/cm", tesla / centimetre),
    ("T/m", tesla / metre)]),
  ("Electric field strength", [("V/mm", volt), ("V/cm", volt / centimetre), ("V/m", volt / metre),
    ("kV/mm", 1.0e3 * volt), ("kV/cm", 1.0e3 * volt / centimetre),
    ("kV/m", 1.0e3 * volt / metre)]),
  ("Energy fluence", [("MeV/mm2", 1.0)]),
  ("Force", [("MeV/mm", 1.0)]),
  ("perForce", [("mm/MeV", 1.0)]),
  ("perForceSquare", [("mm2/MeV2", 1.0)]),
  ("Force per density", [("MeV/mm/(g/cm3)", 1.0 / gramPerCubicCentimetre)]),
  ("Energy force per density", [("MeV2/mm/(g/cm3)", 1.0 / gramPerCubicCentimetre)]),
  ("Fluence", [("/mm2", 1.0), ("/cm2", 1.0 / (centimetre * centimetre))]),
  ("perDose", [("/Gy", 1.0 / gray)]),
  ("perDoseSquare", [("/Gy2", 1.0 / (gray * gray))]),
  ("perEnergy", [("/MeV", 1.0)]),
  ("perForce perDose", [("mm/MeV/Gy", 1.0 / gray)]),
  ("Dose fluence", [("Sv*mm2", gray)]),
  ("Molar concentration", [("M", 1.0e3 / (metre * metre * metre))]),
  ("perTime", [("/s", 1.0 / second)]),
  ("perMolarConcentration perTime", [("/M/s", metre * metre * metre / (1.0e3 * second))]),
  ("Surface perTime", [("m2/s", metre * metre / second), ("nm2/s", 1.0e-12 / second)])]

/-- The categories whose units form rates. -/
def rateCategories : List String :=
  ["Length", "Angle", "Energy", "Magnetic flux density"]

/-- The units of time that rates are formed with, and their sizes. -/
def rateTimes : List (String × Float) :=
  [("s", second), ("ms", 1.0e-3 * second), ("us", 1.0e-6 * second), ("ns", 1.0),
    ("ps", 1.0e-3)]

/-- The category of rates of a category (`Length/Time`). -/
def rateCategory (category : String) : String :=
  category ++ "/Time"

/-- The category of rates without a unit of their own, such as `1/s`. -/
def inverseTime : String := rateCategory ""

/-- All units. -/
def table : List MeasureUnit :=
  let base := baseUnits.flatMap fun (category, units) =>
    units.map fun (symbol, factor) => ⟨symbol, category, factor⟩
  let rates := base.filter fun u => rateCategories.contains u.category
  base ++
    (rates.flatMap fun u =>
      rateTimes.map fun (time, size) =>
        ⟨u.symbol ++ "/" ++ time, rateCategory u.category, u.factor / size⟩) ++
    rateTimes.map fun (time, size) => ⟨"1/" ++ time, inverseTime, 1.0 / size⟩

/-! ## Look-ups -/

/-- The unit with a given symbol.  Capitals count: `mm` is not `Mm`. -/
def ofSymbol? (symbol : String) : Option MeasureUnit :=
  table.find? fun u => u.symbol == symbol

def category? (symbol : String) : Option String :=
  (ofSymbol? symbol).map MeasureUnit.category

def factor? (symbol : String) : Option Float :=
  (ofSymbol? symbol).map MeasureUnit.factor

/-- The symbols of a category in code point order. -/
def symbolsOf (category : String) : List String :=
  ((table.filter fun u => u.category == category).map MeasureUnit.symbol).mergeSort
    fun s t => decide (s ≤ t)

end MeasureUnit

end ParameterChain
