import CCore.Double

/-!
# The controller

`pid.h` is a PID controller: the output is a sum of the error, its integral and the derivative of
the measured value, each with its gain.  The integral is clamped, and the derivative is smoothed by
a first-order filter with the time constant `rise_tau`.

A field that has no value yet is NaN.  The controller begins with four of these, and each function
asks with `isnan` whether a field has its value.  The pointers are those of the caller and are
not `NULL`, so that the assertions hold.
-/

namespace CCore
namespace Pid

/-- `cc_pid_t` -/
structure CcPid where
  prev : F64
  error : F64
  deriv : F64
  integ : F64
  kp : F64
  ki : F64
  kd : F64
  integClamp : F64
  riseTau : F64
  deriving DecidableEq

/-- `clamp_f64` -/
def clampF64 (v min max : F64) : F64 := if min.lt v then (if v.lt max then v else max) else min

/-- `cc_pid_reset` -/
def ccPidReset (pid : CcPid) : CcPid :=
  { pid with prev := .nan, error := .nan, deriv := .nan, integ := .nan }

/-- `cc_pid_init` -/
def ccPidInit (pid : CcPid) (kp ki kd integClamp rise : F64) : CcPid :=
  { ccPidReset pid with
    kp := kp
    ki := ki
    kd := kd
    integClamp := integClamp
    riseTau := rise }

/-- `cc_pid_update` -/
def ccPidUpdate (pid : CcPid) (value error dt : F64) : CcPid :=
  let integ := if pid.integ.isNan then 0 else pid.integ
  let integ := clampF64 (integ + error * dt) (-pid.integClamp) pid.integClamp
  let deriv :=
    if !pid.prev.isNan then
      let dv := (value - pid.prev) / dt
      if pid.deriv.isNan then dv
      else pid.deriv + (dv - pid.deriv) * (dt / pid.riseTau)
    else pid.deriv
  { pid with integ := integ, deriv := deriv, error := error, prev := value }

/-- `cc_pid_get_output` -/
def ccPidGetOutput (pid : CcPid) : F64 :=
  if pid.prev.isNan || pid.integ.isNan then .nan
  else pid.kp * pid.error + pid.ki * pid.integ + pid.kd * pid.deriv

end Pid
end CCore
