/-!
The settings of a pass: what happens to items whose predecessors moved to an earlier day, and the
length that is reported for an item without both dates.
-/

namespace WorkPlan

/-- What a move to an earlier day does to the items that wait for the moved one. -/
inductive PullPolicy where
  /-- They are pulled along, by at most as many days as a predecessor moved. -/
  | follow
  /-- They stay. -/
  | hold
deriving DecidableEq

namespace PullPolicy

def name : PullPolicy → String
  | follow => "follow"
  | hold => "hold"

def ofName? (name : String) : Option PullPolicy := [follow, hold].find? (·.name = name)

/-- How far an item may be pulled, given how far each of its predecessors moved: the largest move to
an earlier day, as a negative number, or zero. -/
def pull (policy : PullPolicy) (moves : List Int) : Int :=
  match policy with
  | follow => moves.foldl min 0
  | hold => 0

end PullPolicy

@[ext] structure Settings where
  policy : PullPolicy := .follow
  placeholder : Int := 1
deriving DecidableEq

/-- Why settings cannot be had: their text is malformed or says something else, their file cannot be
read, or the placeholder is no length. -/
inductive SettingsError where
  | malformed
  | unreadable
  | shortPlaceholder (days : Int)
deriving DecidableEq

def SettingsError.message : SettingsError → String
  | malformed => "Failed to parse config"
  | unreadable => "Failed to read config"
  | shortPlaceholder days =>
    "Invalid config value: placeholder_duration_days must be at least 1, got " ++ toString days

namespace Settings

/-- Accepts settings whose placeholder is at least one day. -/
def checked (s : Settings) : Except SettingsError Settings :=
  if s.placeholder < 1 then .error (.shortPlaceholder s.placeholder) else .ok s

end Settings

end WorkPlan
