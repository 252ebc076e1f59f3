/-! System time. The counter is 32 bits wide and wraps; two stamps are ordered by
their signed distance, which is right while they lie less than `2^31` ticks apart. -/
namespace Z80

abbrev Ticks := BitVec 32

/-- How far `horizon` lies ahead of `now`; negative once it has been passed. -/
def Ticks.distance (now horizon : Ticks) : Int := (horizon - now).toInt

def Ticks.reached (now horizon : Ticks) : Bool := now.distance horizon ≤ 0

def Ticks.since (now earlier : Ticks) : Ticks := now - earlier

@[simp] theorem Ticks.distance_self (now : Ticks) : now.distance now = 0 := by
  simp [distance]

@[simp] theorem Ticks.reached_self (now : Ticks) : now.reached now = true := by
  simp [reached]

@[simp] theorem Ticks.since_add (now d : Ticks) : Ticks.since (now + d) now = d := by
  unfold since; grind

theorem Ticks.distance_add (now horizon d : Ticks) :
    Ticks.distance (now + d) (horizon + d) = now.distance horizon := by
  unfold distance
  congr 1
  grind

end Z80
