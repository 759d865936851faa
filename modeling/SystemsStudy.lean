import SystemsStudy.Lib.Bytes
import SystemsStudy.Lib.Rolling
import SystemsStudy.Lib.Fallible
import SystemsStudy.Lib.Pool
import SystemsStudy.Lib.Relay
import SystemsStudy.Lib.Doorbell
import SystemsStudy.Lib.Chase
import SystemsStudy.Lib.Text
import SystemsStudy.Lib.Rounding
import SystemsStudy.Violation
import SystemsStudy.Noninterference
import SystemsStudy.Exact
import SystemsStudy.Bounds
import SystemsStudy.Atomic
import SystemsStudy.Polling
import SystemsStudy.Abort
import SystemsStudy.Tally
import SystemsStudy.Arena
import SystemsStudy.Placement
import SystemsStudy.Drain
import SystemsStudy.RoundTrip
import SystemsStudy.Demo
import SystemsStudy.Suppression
import SystemsStudy.Burst
import SystemsStudy.Race
import SystemsStudy.Kick
import SystemsStudy.Uffd.Restore
import SystemsStudy.Uffd.Survival
import SystemsStudy.Uffd.Walk
import SystemsStudy.Uffd.Shared
import SystemsStudy.Uffd.Demo
import SystemsStudy.Uffd.Topology
import SystemsStudy.Lib.Trap
import SystemsStudy.Lib.Resource
import SystemsStudy.Kvm.Machine
import SystemsStudy.Kvm.Bringup
import SystemsStudy.Kvm.Rounds
import SystemsStudy.Kvm.Samples
import SystemsStudy.Results
import SystemsStudy.Percentiles
