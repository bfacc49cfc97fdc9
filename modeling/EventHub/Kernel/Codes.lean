import Mathlib.Init

/-! Return values and the timeout that never ends. -/

namespace EventHub.Kernel

def ehRetOk : Int := 0
def ehRetInvalidState : Int := -3
def ehRetBusy : Int := -4
def ehRetEventError : Int := -6
def ehRetTimeout : Int := -7
def ehRetMallocError : Int := -8
def ehRetExists : Int := -12
def ehRetNotExists : Int := -13

def ehTimeForever : Int := -1

end EventHub.Kernel
