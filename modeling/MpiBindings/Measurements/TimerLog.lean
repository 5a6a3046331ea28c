import MpiBindings.Measurements.TimerTree
import Mathlib.Data.List.Induction
import Mathlib.Data.List.Nodup

/-!
# Timer logs

What a timer is for: a log of the measurements that were started and completed.
A measurement is identified by its key path, the keys of the open measurements
around it followed by its own key.
-/

namespace MpiBindings.Measurements

variable {D : Type}

/-- A completed measurement. -/
structure Measurement (D : Type) where
  path : List String
  duration : D
  localAggregationMode : LocalAggregationMode
  globalAggregationModes : List GlobalAggregationMode

structure TimerLog (D : Type) where
  /-- Open measurements and their start points, outermost first. -/
  opened : List (String × D)
  /-- Paths of all started measurements in the order of the starts. -/
  started : List (List String)
  completed : List (Measurement D)

/-! ## Children -/

/-- Last key of a path below the given one. -/
def childKey (parent path : List String) : Option String :=
  if path.dropLast = parent then path.getLast? else none

/-- Keys of the children of a path in the order of their first starts. -/
def childKeys (started : List (List String)) (parent : List String) : List String :=
  (started.filterMap (childKey parent)).eraseDups

theorem eraseDups_concat (keys : List String) (key : String) :
    (keys ++ [key]).eraseDups =
      if key ∈ keys then keys.eraseDups else keys.eraseDups ++ [key] := by
  rw [List.eraseDups_append]
  by_cases hkey : key ∈ keys <;> simp [List.removeAll, hkey, List.eraseDups_cons]

theorem childKey_eq_some {parent path : List String} {key : String} :
    childKey parent path = some key ↔ path = parent ++ [key] := by
  rw [childKey]
  constructor
  · intro hkey
    split_ifs at hkey with hparent
    rw [← hparent, List.dropLast_append_getLast? key hkey]
  · rintro rfl
    rw [if_pos List.dropLast_concat, List.getLast?_concat]

theorem mem_childKeys {started : List (List String)} {parent : List String} {key : String} :
    key ∈ childKeys started parent ↔ parent ++ [key] ∈ started := by
  simp only [childKeys, List.mem_eraseDups, List.mem_filterMap, childKey_eq_some]
  exact ⟨fun ⟨_, hmem, hpath⟩ => hpath ▸ hmem, fun hmem => ⟨_, hmem, rfl⟩⟩

theorem childKeys_start (started : List (List String)) (parent path : List String)
    (key : String) :
    childKeys (started ++ [parent ++ [key]]) path =
      if parent = path ∧ parent ++ [key] ∉ started then childKeys started path ++ [key]
      else childKeys started path := by
  rw [childKeys, List.filterMap_append]
  by_cases hparent : parent = path
  · subst hparent
    have hkey : childKey parent (parent ++ [key]) = some key := childKey_eq_some.mpr rfl
    have hmem : key ∈ started.filterMap (childKey parent) ↔ parent ++ [key] ∈ started := by
      rw [← mem_childKeys, childKeys, List.mem_eraseDups]
    rw [List.filterMap_cons_some hkey, List.filterMap_nil, eraseDups_concat]
    by_cases hstarted : parent ++ [key] ∈ started
    · rw [if_pos (hmem.mpr hstarted), if_neg (fun hnew => hnew.2 hstarted), childKeys]
    · rw [if_neg (mt hmem.mp hstarted), if_pos ⟨rfl, hstarted⟩, childKeys]
  · have hkey : childKey path (parent ++ [key]) = none := by
      rw [childKey, if_neg (by rwa [List.dropLast_concat])]
    rw [List.filterMap_cons_none hkey, List.filterMap_nil, List.append_nil,
      if_neg (fun hnew => hparent hnew.1), childKeys]

theorem nodup_childKeys (started : List (List String)) (parent : List String) :
    (childKeys started parent).Nodup := by
  rw [childKeys]
  generalize started.filterMap (childKey parent) = keys
  induction keys using List.reverseRecOn with
  | nil => exact List.nodup_nil
  | append_singleton keys key ih =>
      rw [eraseDups_concat]
      split_ifs with hkey
      · exact ih
      · exact List.nodup_append.mpr ⟨ih, List.nodup_singleton key, by
          rintro left hleft right hright rfl
          rw [List.mem_singleton.mp hright, List.mem_eraseDups] at hleft
          exact hkey hleft⟩

/-! ## Durations and modes -/

section Durations

variable [Add D]

/-- The durations from the last one on, which grows until a measurement is appended. -/
def recordedFrom (last : D) : List (Measurement D) → List D
  | [] => [last]
  | next :: measurements =>
      match next.localAggregationMode with
      | .accumulate => recordedFrom (last + next.duration) measurements
      | .append => last :: recordedFrom next.duration measurements

/-- The durations that a sequence of measurements leaves: the first measurement begins one,
and so does each that is to be appended; the others are added to the one before them. -/
def recordedDurations : List (Measurement D) → List D
  | [] => []
  | first :: measurements => recordedFrom first.duration measurements

theorem recordedFrom_ne_nil (last : D) (measurements : List (Measurement D)) :
    recordedFrom last measurements ≠ [] := by
  induction measurements generalizing last with
  | nil => exact List.cons_ne_nil _ _
  | cons next measurements ih =>
      rw [recordedFrom]
      cases next.localAggregationMode with
      | accumulate => exact ih _
      | append => exact List.cons_ne_nil _ _

theorem aggregateMeasurementsLocally_cons {durations : List D} (hdurations : durations ≠ [])
    (first duration : D) (mode : LocalAggregationMode) :
    aggregateMeasurementsLocally (first :: durations) duration mode =
      first :: aggregateMeasurementsLocally durations duration mode := by
  cases mode with
  | append => rfl
  | accumulate =>
      obtain ⟨last, hlast⟩ := Option.ne_none_iff_exists'.mp
        (mt List.getLast?_eq_none_iff.mp hdurations)
      have hlast' : (first :: durations).getLast? = some last := by
        rw [List.getLast?_cons, hlast]
        rfl
      rw [aggregateMeasurementsLocally, aggregateMeasurementsLocally, hlast, hlast']
      simp only [List.dropLast_cons_of_ne_nil hdurations, List.cons_append]

theorem recordedFrom_concat (last : D) (measurements : List (Measurement D))
    (measurement : Measurement D) :
    recordedFrom last (measurements ++ [measurement]) =
      aggregateMeasurementsLocally (recordedFrom last measurements) measurement.duration
        measurement.localAggregationMode := by
  induction measurements generalizing last with
  | nil =>
      rw [List.nil_append, recordedFrom, recordedFrom, recordedFrom, recordedFrom]
      cases measurement.localAggregationMode <;> rfl
  | cons next measurements ih =>
      rw [List.cons_append, recordedFrom, recordedFrom]
      cases next.localAggregationMode with
      | accumulate => exact ih _
      | append =>
          exact (congrArg _ (ih _)).trans
            (aggregateMeasurementsLocally_cons (recordedFrom_ne_nil _ _) _ _ _).symm

/-- A node stores what a sequence of measurements leaves. -/
theorem recordedDurations_concat (measurements : List (Measurement D))
    (measurement : Measurement D) :
    recordedDurations (measurements ++ [measurement]) =
      aggregateMeasurementsLocally (recordedDurations measurements) measurement.duration
        measurement.localAggregationMode := by
  cases measurements with
  | nil => cases h : measurement.localAggregationMode <;> rfl
  | cons first measurements => exact recordedFrom_concat _ _ _

end Durations

namespace TimerLog

def empty : TimerLog D := ⟨[], [], []⟩

/-- Path of the innermost open measurement. -/
def currentPath (log : TimerLog D) : List String := log.opened.map (·.1)

def start (log : TimerLog D) (key : String) (startpoint : D) : TimerLog D where
  opened := log.opened ++ [(key, startpoint)]
  started := log.started ++ [log.currentPath ++ [key]]
  completed := log.completed

/-- Complete the innermost open measurement. -/
def stop [Sub D] (log : TimerLog D) (localAggregationMode : LocalAggregationMode)
    (globalAggregationModes : List GlobalAggregationMode) (endpoint : D) : TimerLog D :=
  match log.opened.getLast? with
  | none => log
  | some (_, startpoint) =>
      { log with
        opened := log.opened.dropLast
        completed := log.completed ++
          [⟨log.currentPath, endpoint - startpoint, localAggregationMode,
            globalAggregationModes⟩] }

def call [Sub D] (log : TimerLog D) : TimerCall D → TimerLog D
  | .start key time => log.start key time
  | .stop modes time => log.stop .accumulate modes time
  | .stopAndAdd modes time => log.stop .accumulate modes time
  | .stopAndAppend modes time => log.stop .append modes time
  | .clear => empty

def run [Sub D] (log : TimerLog D) (calls : List (TimerCall D)) : TimerLog D :=
  calls.foldl call log

/-- Completed measurements of a path. -/
def measurements (log : TimerLog D) (path : List String) : List (Measurement D) :=
  log.completed.filter fun measurement => measurement.path = path

def durations [Add D] (log : TimerLog D) (path : List String) : List D :=
  recordedDurations (log.measurements path)

/-- The last non-empty list of modes of a path, initially the maximum. -/
def modes (log : TimerLog D) (path : List String) : List GlobalAggregationMode :=
  (((log.measurements path).map Measurement.globalAggregationModes).filter
    (· ≠ [])).getLastD [.max]

/-- Whether the assertion that a measurement is open fails. -/
def Fails (log : TimerLog D) : TimerCall D → Prop
  | .stop _ _ | .stopAndAdd _ _ | .stopAndAppend _ _ => log.opened = []
  | .start _ _ | .clear => False

end TimerLog

end MpiBindings.Measurements
