import SystemsCourse.Lib.Resp

/-!
# The Redis edge

Model of `capstone/matching/solution-reference/src/redis_edge.cpp`.

`Network` has the results of the system calls.  `publish` returns its result and what it handed to `send`.
-/

namespace Matching
open Wire Decimal

def respBulk (value : Bytes) : Bytes :=
  ascii "$" ++ print value.length ++ ascii "\r\n" ++ value ++ ascii "\r\n"

structure EdgeResult where
  ok : Bool := false
  error : Bytes := []
deriving DecidableEq

structure RedisPublisher where
  host : Bytes
  port : UInt16
  channel : Bytes

/-- `socket` and `connect` for one address -/
inductive Attempt where
  | noSocket
  | refused
  | connected
deriving DecidableEq

structure Network where
  /-- whether `getaddrinfo` finds the host and the port -/
  resolves : Bytes → Bytes → Bool
  attempts : List Attempt
  /-- what `send` returns -/
  send : Bytes → ℤ
  /-- what `recv` has read, if it is not an error -/
  recv : Option Bytes

namespace RedisPublisher

/-- the variable `command` of `publish` -/
def command (publisher : RedisPublisher) (payload : Bytes) : Bytes :=
  ascii "*3\r\n" ++ respBulk (ascii "PUBLISH") ++ respBulk publisher.channel ++ respBulk payload

def publish (publisher : RedisPublisher) (net : Network) (payload : Bytes) :
    EdgeResult × Option Bytes :=
  let port := print publisher.port.toNat
  if net.resolves publisher.host port = false then (⟨false, ascii "redis getaddrinfo failed"⟩, none)
  -- the loop stops at the first address that is connected
  else if Attempt.connected ∉ net.attempts then (⟨false, ascii "redis connection failed"⟩, none)
  else
    let command := publisher.command payload
    let failed : EdgeResult := ⟨false, ascii "redis publish failed"⟩
    let result : EdgeResult :=
      match net.recv with
      | none | some [] => failed
      | some (c :: _) =>
        if net.send command ≠ command.length then failed
        -- 58 is the colon of an integer reply
        else ⟨c = 58, if c = 58 then ascii "published" else ascii "redis rejected publish"⟩
    (result, some command)

/-- the command is an array of three elements -/
theorem command_eq (publisher : RedisPublisher) (payload : Bytes) :
    publisher.command payload = Resp.array [ascii "PUBLISH", publisher.channel, payload] := by
  have hhead : ascii "*3\r\n" = ascii "*" ++ print 3 ++ ascii "\r\n" := by decide
  unfold command Resp.array
  rw [hhead, List.flatMap_cons, List.flatMap_cons, List.flatMap_cons, List.flatMap_nil, List.append_nil,
    List.append_assoc, List.append_assoc]
  rfl

theorem publish_command (publisher : RedisPublisher) (net : Network) (payload : Bytes) :
    (publisher.publish net payload).2 = none ∨
      (publisher.publish net payload).2 = some (publisher.command payload) := by
  unfold publish
  dsimp only
  split
  · exact Or.inl rfl
  · split
    · exact Or.inl rfl
    · exact Or.inr rfl

end RedisPublisher

/-- **The command is injection-proof.**  A RESP2 parser takes the command, and nothing of what follows, as
its three elements; and what is sent determines the channel, the payload and what follows. -/
theorem resp_command (publisher : RedisPublisher) (payload : Bytes) :
    (∀ net, (publisher.publish net payload).2 = none ∨
        (publisher.publish net payload).2 = some (publisher.command payload)) ∧
      (∀ rest, Resp.parseArray (publisher.command payload ++ rest)
        = some ([ascii "PUBLISH", publisher.channel, payload], rest)) ∧
      ∀ (publisher' : RedisPublisher) (payload' rest rest' : Bytes),
        publisher.command payload ++ rest = publisher'.command payload' ++ rest' →
          publisher.channel = publisher'.channel ∧ payload = payload' ∧ rest = rest' := by
  have hparse (publisher : RedisPublisher) (payload rest : Bytes) :
      Resp.parseArray (publisher.command payload ++ rest)
        = some ([ascii "PUBLISH", publisher.channel, payload], rest) := by
    rw [RedisPublisher.command_eq, Resp.parseArray_append]
  refine ⟨fun net => publisher.publish_command net payload, hparse publisher payload, ?_⟩
  intro publisher' payload' rest rest' heq
  have hboth := hparse publisher payload rest
  rw [heq, hparse] at hboth
  injection hboth with hpair
  injection hpair with hvalues hrest
  injection hvalues with _ hvalues
  injection hvalues with hchannel hvalues
  injection hvalues with hpayload _
  exact ⟨hchannel.symm, hpayload.symm, hrest.symm⟩

/-- a payload that would be a command of its own -/
theorem resp_command_nested :
    let publisher : RedisPublisher := { host := ascii "redis", port := 6379, channel := ascii "fills\r\n" }
    let payload := ascii "\r\n*1\r\n$8\r\nFLUSHALL\r\n"
    Resp.parseArray (publisher.command payload ++ publisher.command [])
        = some ([ascii "PUBLISH", publisher.channel, payload], publisher.command []) ∧
      publisher.command payload ≠ publisher.command [] := by
  intro publisher payload
  obtain ⟨-, hparse, hinj⟩ := resp_command publisher payload
  refine ⟨hparse _, fun heq => ?_⟩
  obtain ⟨-, hpayload, -⟩ := hinj publisher [] [] [] (by rw [heq])
  exact absurd hpayload (by decide)

end Matching
