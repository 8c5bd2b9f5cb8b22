import CCore.Config.Answers
import CCore.Config.Parsing
import CCore.Pid.Model

/-!
# Loading the gains

`cc_pid_load_cfg` asks for four numbers, one after the other, and resets the controller when it
has them all.  It passes the key where `cc_cfg_get_double` takes the place for the result, and the
place where it takes the format of the key.  So the key that is searched for is printed from the
bytes of the controller, and a value that is found goes into a string literal.

## What is printed

The format begins with the first byte of the field, and ends with the first zero byte that comes
then, in the field or behind it.  What `vsnprintf` makes of it is a parameter, `printed`; there is
no text where the format asks for arguments that are not there.  For a field that holds zero the
first byte is zero, and the text is empty.

## What follows

A value that is found is written into a literal, and this has no result.  If none is found the
function returns false at once.  So it never returns true, and it never comes to the second
lookup (`ccPidLoadCfg_eq`).
-/

namespace CCore
namespace Pid

open Config

/-- The fields that are loaded. -/
inductive Field where
  | kp
  | ki
  | kd
  | riseTau
  deriving DecidableEq

/-- The keys of the fields. -/
def Field.key : Field → List UInt8
  | kp => "pid_kp".toList.map Char.toUInt8
  | ki => "pid_ki".toList.map Char.toUInt8
  | kd => "pid_kd".toList.map Char.toUInt8
  | riseTau => "pid_rise".toList.map Char.toUInt8

/-- The value of a field. -/
def Field.get (pid : CcPid) : Field → F64
  | kp => pid.kp
  | ki => pid.ki
  | kd => pid.kd
  | riseTau => pid.riseTau

variable (printed : CcPid → Field → Option CString)

/-- `cc_cfg_get_double(cfg, "pid_...", &pid->...)`.  Of the literal, which takes the place of
`*out`, nothing is read, and it cannot be written. -/
def getGain (cfg : CcCfg) (pid : CcPid) (field : Field) : Option Bool :=
  (printed pid field).bind fun formatted =>
    (ccCfgGetDouble cfg .nan formatted).bind fun (found, _) => if found then none else some false

/-- `cc_pid_load_cfg`: what it returns, and the controller. -/
def ccPidLoadCfg (pid : CcPid) (cfg : CcCfg) : Option (Bool × CcPid) :=
  (getGain printed cfg pid .kp).bind fun found =>
    if !found then some (false, pid)
    else (getGain printed cfg pid .ki).bind fun found =>
      if !found then some (false, pid)
      else (getGain printed cfg pid .kd).bind fun found =>
        if !found then some (false, pid)
        else (getGain printed cfg pid .riseTau).bind fun found =>
          if !found then some (false, pid)
          else some (true, ccPidReset pid)

/-! ## What the function should do -/

/-- The configuration has a number under the key. -/
def HasNumber (cfg : CcCfg) (key : List UInt8) : Prop :=
  (findEntry cfg key).bind CcCfgEntry.kind = some .num

/-- **All or nothing.**  The function returns true exactly if all of the four keys are there as
numbers.  If it returns true, the fields hold these numbers and the controller is reset, and if it
returns false, nothing has changed. -/
def LoadsAllOrNothing (pid : CcPid) (cfg : CcCfg) : Prop :=
  ∃ loaded pid', ccPidLoadCfg printed pid cfg = some (loaded, pid') ∧
    (loaded = true ↔ ∀ field : Field, HasNumber cfg field.key) ∧
    (loaded = true → ccPidReset pid' = pid' ∧ ∀ field : Field,
      (findEntry cfg field.key).bind CcCfgEntry.f64 = some (field.get pid')) ∧
    (loaded = false → pid' = pid)

variable {printed} {cfg : CcCfg} {pid : CcPid}

/-! ## What the function does -/

/-- A lookup that comes to an end has found nothing. -/
theorem getGain_eq_some_iff {field : Field} {found : Bool} :
    getGain printed cfg pid field = some found ↔
      found = false ∧ ∃ formatted, printed pid field = some formatted ∧
        ∀ entry, findEntry cfg (keyBuffer formatted) = some entry →
          ∃ kind, entry.kind = some kind ∧ kind ≠ .num := by
  rw [getGain, Option.bind_eq_some_iff]
  constructor
  · rintro ⟨formatted, hprinted, hget⟩
    obtain ⟨⟨found', out⟩, hdouble, hresult⟩ := Option.bind_eq_some_iff.mp hget
    cases found' with
    | true => exact nomatch hresult
    | false =>
      refine ⟨(Option.some.inj hresult).symm, formatted, hprinted, ?_⟩
      exact (getField_eq_false_iff.mp hdouble).2
  · rintro ⟨rfl, formatted, hprinted, hentry⟩
    have hdouble : ccCfgGetDouble cfg .nan formatted = some (false, .nan) :=
      getField_eq_false_iff.mpr ⟨rfl, hentry⟩
    refine ⟨formatted, hprinted, ?_⟩
    rw [hdouble]
    rfl

/-- **The function is its first lookup.** -/
theorem ccPidLoadCfg_eq :
    ccPidLoadCfg printed pid cfg = (getGain printed cfg pid .kp).map fun _ => (false, pid) := by
  rw [ccPidLoadCfg]
  cases hgain : getGain printed cfg pid .kp with
  | none => rfl
  | some found =>
    obtain ⟨rfl, -⟩ := getGain_eq_some_iff.mp hgain
    rfl

/-- **Exactly when the function loads all or nothing.**  Some of the four keys is not there as a
number, and neither is the key that is printed from the bytes of `kp`. -/
theorem loadsAllOrNothing_iff (printed : CcPid → Field → Option CString) (pid : CcPid)
    (cfg : CcCfg) :
    LoadsAllOrNothing printed pid cfg ↔
      (¬ ∀ field : Field, HasNumber cfg field.key) ∧
        ∃ formatted, printed pid .kp = some formatted ∧
          ∀ entry, findEntry cfg (keyBuffer formatted) = some entry →
            ∃ kind, entry.kind = some kind ∧ kind ≠ .num := by
  rw [LoadsAllOrNothing, ccPidLoadCfg_eq]
  constructor
  · rintro ⟨loaded, pid', hload, hall, -, -⟩
    obtain ⟨found, hgain, hresult⟩ := Option.map_eq_some_iff.mp hload
    obtain ⟨rfl, rfl⟩ := Prod.mk.inj hresult
    exact ⟨fun hnumbers => Bool.false_ne_true (hall.mpr hnumbers),
      (getGain_eq_some_iff.mp hgain).2⟩
  · rintro ⟨hmissing, hprinted⟩
    have hgain : getGain printed cfg pid .kp = some false :=
      getGain_eq_some_iff.mpr ⟨rfl, hprinted⟩
    refine ⟨false, pid, congrArg (Option.map _) hgain, ?_, ?_, fun _ => rfl⟩
    · exact iff_of_false Bool.false_ne_true hmissing
    · exact fun htrue => absurd htrue Bool.false_ne_true

/-- A configuration with all of the four keys. -/
def gainsFile : List UInt8 :=
  "pid_kp: 1\npid_ki: 2\npid_kd: 3\npid_rise: 4\n".toList.map Char.toUInt8

/-- What is printed for a field that holds zero: its first byte ends the format. -/
def printedZero (pid : CcPid) (field : Field) : Option CString :=
  if field.get pid = .fin 0 then some ⟨[], List.not_mem_nil⟩ else none

/-- A controller whose gains are zero. -/
def zeroPid : CcPid := ccPidInit ⟨0, 0, 0, 0, 0, 0, 0, 0, 0⟩ 0 0 0 1 1

/-- **The four keys are there**, and the function returns false. -/
theorem not_loadsAllOrNothing_gainsFile :
    ∃ cfg, ccCfgLoad decimalAtof 50 (some ⟨gainsFile, false, false⟩) = some (some cfg) ∧
      (∀ field : Field, HasNumber cfg field.key) ∧
      ccPidLoadCfg printedZero zeroPid cfg = some (false, zeroPid) ∧
      ¬ LoadsAllOrNothing printedZero zeroPid cfg := by
  have hrun : (ccCfgLoad decimalAtof 50 (some ⟨gainsFile, false, false⟩)).join.map (fun cfg =>
      (([Field.kp, .ki, .kd, .riseTau].map fun field =>
        (findEntry cfg field.key).bind CcCfgEntry.kind), findEntry cfg [])) =
      some ([some .num, some .num, some .num, some .num], none) := by
    decide +kernel
  obtain ⟨cfg, hcfg, hresult⟩ := Option.map_eq_some_iff.mp hrun
  obtain ⟨hkinds, hempty⟩ := Prod.mk.inj hresult
  simp only [List.map_cons, List.map_nil, List.cons.injEq, and_true] at hkinds
  obtain ⟨hkp, hki, hkd, hrise⟩ := hkinds
  have hnumbers : ∀ field : Field, HasNumber cfg field.key := fun field => by
    cases field with
    | kp => exact hkp
    | ki => exact hki
    | kd => exact hkd
    | riseTau => exact hrise
  have hprinted : printedZero zeroPid .kp = some ⟨[], List.not_mem_nil⟩ := by decide
  have hgain : getGain printedZero cfg zeroPid .kp = some false := by
    refine getGain_eq_some_iff.mpr ⟨rfl, _, hprinted, fun entry hentry => ?_⟩
    exact nomatch hempty.symm.trans hentry
  have hload : ccPidLoadCfg printedZero zeroPid cfg = some (false, zeroPid) := by
    rw [ccPidLoadCfg_eq, hgain, Option.map_some]
  refine ⟨cfg, Option.join_eq_some_iff.mp hcfg, hnumbers, hload, ?_⟩
  rintro ⟨loaded, pid', hload', hall, -, -⟩
  obtain ⟨rfl, -⟩ := Prod.mk.inj (Option.some.inj (hload.symm.trans hload'))
  exact Bool.false_ne_true (hall.mpr hnumbers)

end Pid
end CCore
