import TcpStack.SeqNum

/-! The configuration of a connection, and which ones are refused. -/

namespace TcpStack

/-- `capacity` is that of each of the two streams, in bytes, and `timeout` the first retransmission
timeout, in milliseconds. A segment is sent again `maxResends` times before the connection gives up.
Without `isn` the initial sequence number is chosen by whoever opens the connection. -/
structure Config where
  capacity : Nat := 64000
  timeout : Nat := 1000
  maxResends : Nat := 8
  isn : Option SeqNum := none
deriving DecidableEq, Repr

inductive ConfigError where
  | zeroCapacity
  | zeroTimeout
  | zeroPollInterval
deriving DecidableEq, Repr

def ConfigError.message : ConfigError → String
  | .zeroCapacity => "invalid connection configuration: capacity == 0"
  | .zeroTimeout => "invalid connection configuration: rt_timeout_ms == 0"
  | .zeroPollInterval => "invalid stream configuration: poll_interval_ms == 0"

namespace Config

def validate (config : Config) : Except ConfigError Unit :=
  if config.capacity = 0 then .error .zeroCapacity
  else if config.timeout = 0 then .error .zeroTimeout
  else .ok ()

theorem validate_eq_ok_iff {config : Config} :
    config.validate = .ok () ↔ 0 < config.capacity ∧ 0 < config.timeout := by
  unfold validate
  split
  · simp_all
  · split
    · simp_all
    · simp_all
      omega

end Config
end TcpStack
