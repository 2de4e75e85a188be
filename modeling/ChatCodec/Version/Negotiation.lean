import ChatCodec.Error

/-!
# Version negotiation

A client and a server each state the version they prefer and the oldest they support. They speak
the older of the two preferred versions, provided it lies in both supported ranges.
-/

namespace ChatCodec.Version

/-- The version both sides speak, or the mismatch of their ranges. -/
def negotiate (client clientMin server serverMin : Version) : Except CodecError Version :=
  let agreed : Version := ⟨min client.raw server.raw⟩
  if serverMin.raw ≤ client.raw ∧ clientMin.raw ≤ server.raw ∧
      clientMin.raw ≤ agreed.raw ∧ serverMin.raw ≤ agreed.raw then
    .ok agreed
  else
    .error (.versionMismatch clientMin client serverMin server)

end ChatCodec.Version
