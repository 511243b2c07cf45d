import Gossip.Main
import Gossip.Fabric
import Gossip.Journal
import Gossip.Proofs.Json.Record
import Gossip.Proofs.Packet.RoundTrip
import Gossip.Proofs.Batch
import Gossip.Proofs.Egress
import Gossip.Proofs.Handling
import Gossip.Proofs.Cluster
import Gossip.Proofs.Wave.Termination
import Gossip.Proofs.Wave.Casts
import Gossip.Proofs.Wave.Coverage
import Gossip.Proofs.Wave.Branching
import Gossip.Proofs.Delivery
import Gossip.Proofs.Metadata.Learning
import Gossip.Proofs.Metadata.Publication
import Gossip.Proofs.Metadata.Provenance
import Gossip.Proofs.Metadata.History
import Gossip.Proofs.Metadata.Newest
import Gossip.Proofs.Fabric
import Gossip.Proofs.Replication
import Gossip.Proofs.Metadata.Comparison
import Gossip.Proofs.Metadata.Repair
import Gossip.Proofs.Foreign
import Gossip.Proofs.Failure
import Gossip.Proofs.Metadata.Succession
import Gossip.Proofs.Metadata.Rounds
import Gossip.Proofs.Membership.Presence
import Gossip.Proofs.Membership.Lifetime
import Gossip.Proofs.Requests
import Gossip.Proofs.Membership.Gateway
import Gossip.Proofs.Packet.Extent
import Gossip.Proofs.Packet.Stamp
import Gossip.Proofs.Packet.Tolerance
import Gossip.Proofs.Metadata.Pinned
import Gossip.Proofs.Batch.Turns
import Gossip.Proofs.Agent
import Gossip.Proofs.Membership.Itself
import Gossip.Proofs.Forwarding
import Gossip.Proofs.Agent.Lifecycle
import Gossip.Proofs.Agent.Inbound
import Gossip.Proofs.Batch.Refusal
import Gossip.Proofs.Metadata.Candidates
import Gossip.Proofs.Metadata.Announcing
import Gossip.Proofs.Packet.Size
import Gossip.Proofs.Metadata.Swapping
import Gossip.Proofs.Fabric.Conservation
import Gossip.Proofs.Address.Subnet
import Gossip.Proofs.Metadata.Payload
