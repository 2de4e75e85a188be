import ChatCodec.Config.Json
import ChatCodec.Proofs.Framing.Accounts
import ChatCodec.Proofs.Framing.Agreement
import ChatCodec.Proofs.Framing.Atomicity
import ChatCodec.Proofs.Framing.Canonical
import ChatCodec.Proofs.Framing.Confinement
import ChatCodec.Proofs.Framing.Delivery
import ChatCodec.Proofs.Framing.Expected
import ChatCodec.Proofs.Framing.Failure
import ChatCodec.Proofs.Framing.Isolation
import ChatCodec.Proofs.Framing.Patching
import ChatCodec.Proofs.Framing.Registrations
import ChatCodec.Proofs.Framing.Shortage
import ChatCodec.Proofs.Framing.Sinks
import ChatCodec.Proofs.Pools.Ledger
import ChatCodec.Proofs.Reading.Counts
import ChatCodec.Proofs.Reading.Incremental
import ChatCodec.Proofs.Reading.Steps
import ChatCodec.Proofs.RoundTrip.Distinct
import ChatCodec.Proofs.RoundTrip.Image
import ChatCodec.Proofs.RoundTrip.Lawful
import ChatCodec.Proofs.RoundTrip.Overlong
import ChatCodec.Proofs.Segments.Refinement
import ChatCodec.Proofs.Serializers.Rooms
import ChatCodec.Proofs.Serializers.Sizes
import ChatCodec.Proofs.Snowflakes.Issuing
import ChatCodec.Proofs.Streams.Bounds
import ChatCodec.Proofs.Streams.Script
import ChatCodec.Proofs.Streams.Sending
import ChatCodec.Proofs.Timestamps.Conversions
import ChatCodec.Proofs.Writing.Simulation
import ChatCodec.Reader.Program
import ChatCodec.Snowflake.Generator
import ChatCodec.Stream
import ChatCodec.Version.Negotiation
import ChatCodec.Writer.Program
import ChatCodec.Writer.Script
import ChatCodec.Proofs.Framing.Foreign
import ChatCodec.Proofs.RoundTrip.Normal
