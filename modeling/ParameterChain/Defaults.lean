/-
# The built-in defaults

Every parameter file that names no includes of its own includes the built-in
defaults, unless they are switched off.  They are an ordinary parameter file,
kept here line by line.
-/

namespace ParameterChain

/-- The lines of the built-in defaults file.  The last one is empty, for the text
ends with a line feed. -/
def defaultLines : List String := [
  "",
  "# Session",
  "i:Ts/Seed = 1",
  "i:Ts/MaxStepNumber = 1000000",
  "b:Ts/DumpParameters = \"False\"",
  "b:Ts/DumpNonDefaultParameters = \"False\"",
  "b:Ts/ListUnusedParameters = \"False\"",
  "i:Ts/ShowHistoryCountAtInterval = 1",
  "i:Ts/RunIDPadding = 4",
  "i:Ts/RunVerbosity = 0",
  "i:Ts/EventVerbosity = 0",
  "i:Ts/TrackingVerbosity = 0",
  "i:Ts/SequenceVerbosity = 0",
  "i:Ts/NumberOfThreads = 1",
  "s:Ts/G4DataDirectory = \"\"",
  "b:Ts/UseQt = \"False\"",
  "d:Ts/ExtraSequenceSleepInterval = 10 s",
  "d:Ts/KilledTrackMaxEnergy = 0. MeV",
  "i:Ts/KilledTrackMaxCount = 0",
  "",
  "# Physics",
  "s:Ph/ListName = \"Default\"",
  "b:Ph/ListProcesses = \"False\"",
  "s:Ph/Default/Type = \"Geant4_Modular\"",
  "sv:Ph/Default/Modules = 6 \"g4em-standard_opt4\" \"g4h-phy_QGSP_BIC_HP\" " ++
    "\"g4decay\" \"g4ion-binarycascade\" \"g4h-elastic_HP\" \"g4stopping\"",
  "d:Ph/Default/EMRangeMin = 100. eV",
  "d:Ph/Default/EMRangeMax = 500. MeV",
  "",
  "# Time",
  "b:Tf/RandomizeTimeDistribution = \"False\"",
  "d:Tf/TimelineStart = 0. s",
  "d:Tf/TimelineEnd = Tf/TimelineStart s",
  "i:Tf/NumberOfSequentialTimes = 1",
  "i:Tf/Verbosity = 0",
  "",
  "# Geometry",
  "i:Ge/Verbosity = 0",
  "b:Ge/CheckForOverlaps = \"True\"",
  "i:Ge/CheckForOverlapsResolution = 1000",
  "d:Ge/CheckForOverlapsTolerance = 0. mm",
  "b:Ge/QuitIfOverlapDetected = \"True\"",
  "s:Ge/World/Type = \"TsBox\"",
  "s:Ge/World/Material = \"Air\"",
  "d:Ge/World/HLX = 5. m",
  "d:Ge/World/HLY = 5. m",
  "d:Ge/World/HLZ = 5. m",
  "d:Ge/World/TransX = 0. m",
  "d:Ge/World/TransY = 0. m",
  "d:Ge/World/TransZ = 0. m",
  "d:Ge/World/RotX = 0. deg",
  "d:Ge/World/RotY = 0. deg",
  "d:Ge/World/RotZ = 0. deg",
  "b:Ge/World/Invisible = \"True\"",
  "",
  "# Graphics",
  "b:Gr/Enable = \"True\"",
  "i:Gr/Verbosity = 0",
  ""]

/-- The text of the built-in defaults file. -/
def defaultText : String :=
  "\n".intercalate defaultLines

end ParameterChain
