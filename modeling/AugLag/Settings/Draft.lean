import AugLag.Settings.Validate

/-! Drafts of settings, in which only some settings are filled in. -/
namespace AugLag

/-- The values that are filled in. -/
def SettingsDraft (T : Type) : Type := (s : Setting) → Option (s.kind.Value T)

namespace SettingsDraft

variable {T : Type}

def empty : SettingsDraft T := fun _ => none

def set (draft : SettingsDraft T) (s : Setting) (v : s.kind.Value T) : SettingsDraft T := fun t =>
  if h : s = t then some (h ▸ v) else draft t

/-- The draft in which every setting is filled in. -/
def ofSettings (c : Settings T) : SettingsDraft T := fun s => some (c.get s)

/-- Replaces the settings that are filled in. -/
def overwrite (draft : SettingsDraft T) (c : Settings T) : Settings T :=
  Setting.all.foldl (fun c s =>
    match draft s with
    | some v => c.set s v
    | none => c) c

/-- The settings whose values a draft checks, in order. -/
def checked : List Setting :=
  [.maxIter, .innerMaxIter, .maxOuterIter, .timeLimit, .epsAbs, .epsRel, .toleranceShrink, .initialPenalty,
   .penaltyGrowth, .penaltyProgressRatio, .maxPenalty, .initialProximal, .proximalShrink, .minProximal,
   .proximalRegularizationFactor, .scalingMin, .scalingMax, .factorizationMethod, .linesearchArmijo,
   .linesearchBacktrackStep, .printInterval]

variable [Scalar T]

/-- Checks the settings that are filled in, each taken alone. -/
def validate (draft : SettingsDraft T) : Except SettingsError Unit :=
  match checked.find? fun s => !(draft s).all s.range.contains with
  | some s => .error (.badValue s)
  | none => .ok ()

/-- The settings of a valid draft, with defaults for what is not filled in. -/
def build (draft : SettingsDraft T) : Except SettingsError (Settings T) :=
  draft.validate.map fun _ => draft.overwrite Settings.default

end SettingsDraft
end AugLag
