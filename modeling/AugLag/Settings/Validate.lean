import AugLag.Settings.Basic

/-! Legal values of settings. A check reports the first setting at fault in a fixed order. -/
namespace AugLag

/-- Why settings are refused. -/
inductive SettingsError
  | badValue (setting : Setting)
  /-- The setting is used up by the setup of a problem. -/
  | immutable (setting : Setting)
deriving DecidableEq, Repr

def SettingsError.message : SettingsError → String
  | .badValue s => s!"Bad value for field \"{s.name}\""
  | .immutable s => s!"Field \"{s.name}\" cannot be changed after setup"

/-- The sets of legal values. Limits on numbers exclude NaN, and infinity where no upper limit is given. -/
inductive SettingRange : SettingKind → Type
  | any {k : SettingKind} : SettingRange k
  | positiveCount : SettingRange .count
  | positiveTime : SettingRange .time
  | nonnegative : SettingRange .real
  | positive : SettingRange .real
  | aboveOne : SettingRange .real
  /-- Above zero and at most one. -/
  | ratio : SettingRange .real
  /-- Strictly between zero and one. -/
  | fraction : SettingRange .real
  | knownMethod : SettingRange .method

def SettingRange.contains {T : Type} [Scalar T] : {k : SettingKind} → SettingRange k → k.Value T → Bool
  | _, .any, _ => true
  | _, .positiveCount, (v : Nat) => 0 < v
  | _, .positiveTime, (v : Float) => 0 < v
  | _, .nonnegative, (v : T) => 0 ≤ v && Scalar.isFinite v
  | _, .positive, (v : T) => 0 < v && Scalar.isFinite v
  | _, .aboveOne, (v : T) => 1 < v && Scalar.isFinite v
  | _, .ratio, (v : T) => 0 < v && v ≤ 1
  | _, .fraction, (v : T) => 0 < v && v < 1
  | _, .knownMethod, (v : Method) => v = .auto || v = .kkt || v = .schur

/-- The legal values of each setting. -/
def Setting.range : (s : Setting) → SettingRange s.kind
  | .maxIter | .innerMaxIter | .maxOuterIter | .printInterval => .positiveCount
  | .timeLimit => .positiveTime
  | .epsAbs | .epsRel | .epsAbsIn | .epsRelIn | .epsPrimInf | .epsDualInf | .reducedEpsAbs | .reducedEpsRel
  | .reducedEpsPrimInf | .reducedEpsDualInf | .maxRankUpdateFraction => .nonnegative
  | .initialPenalty | .maxPenalty | .initialProximal | .minProximal | .scalingMin | .scalingMax => .positive
  | .penaltyGrowth | .proximalRegularizationFactor => .aboveOne
  | .toleranceShrink | .penaltyProgressRatio | .proximalShrink => .ratio
  | .linesearchArmijo | .linesearchBacktrackStep => .fraction
  | .factorizationMethod => .knownMethod
  | .proximalEnable | .nonconvex | .maxFactorizationRetries | .scalingEnable | .scalingIter | .maxRankUpdate
  | .resetNewtonIter | .linesearchMaxBacktrack | .verbose => .any

namespace Settings

variable {T : Type} [Scalar T]

/-- Conditions on several settings, with the setting that a failure is charged to. -/
def jointConditions (c : Settings T) : List (Setting × Bool) :=
  [(.epsAbs, !(c.epsAbs == 0 && c.epsRel == 0)),
   (.scalingMin, !(c.scalingMax < c.scalingMin)),
   (.initialPenalty, !(c.maxPenalty < c.initialPenalty))]

/-- Checks every setting, and then the conditions on several of them. -/
def validate (c : Settings T) : Except SettingsError Unit :=
  match Setting.all.find? fun s => !s.range.contains (c.get s) with
  | some s => .error (.badValue s)
  | none =>
    match c.jointConditions.find? fun p => !p.2 with
    | some p => .error (.badValue p.1)
    | none => .ok ()

/-- The settings that may not change after setup, each with whether it is unchanged. -/
def fixedSettings (c previous : Settings T) : List (Setting × Bool) :=
  [(.scalingEnable, c.scalingEnable == previous.scalingEnable),
   (.scalingIter, c.scalingIter == previous.scalingIter),
   (.scalingMin, c.scalingMin == previous.scalingMin),
   (.scalingMax, c.scalingMax == previous.scalingMax),
   (.factorizationMethod, c.factorizationMethod == previous.factorizationMethod),
   (.nonconvex, c.nonconvex == previous.nonconvex)]

/-- Checks the settings as a replacement for those of a problem that is set up. -/
def validateAsUpdate (c previous : Settings T) : Except SettingsError Unit := do
  c.validate
  match (c.fixedSettings previous).find? fun p => !p.2 with
  | some p => .error (.immutable p.1)
  | none => .ok ()

end Settings
end AugLag
