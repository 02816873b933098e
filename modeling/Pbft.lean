import Pbft.Client.Tally
import Pbft.Node.CheckpointStore
import Pbft.Node.Delivery
import Pbft.Node.Discarded
import Pbft.Node.DoubleVote
import Pbft.Node.EarlyCommit
import Pbft.Node.Install
import Pbft.Node.NullRequest
import Pbft.Node.OldVotes
import Pbft.Node.OwnVote
import Pbft.Node.Passes
import Pbft.Node.PrepareQuorum
import Pbft.Node.StableProof
import Pbft.Node.Validation
import Pbft.Cluster.Agreement
import Pbft.Cluster.AcrossViews
import Pbft.Cluster.AtMostOnce
import Pbft.Cluster.Backups
import Pbft.Cluster.Checkpoints
import Pbft.Cluster.Collected
import Pbft.Cluster.Contiguous
import Pbft.Cluster.NormalCase
import Pbft.Cluster.Overlap
import Pbft.Cluster.Preservation
import Pbft.Cluster.Validity
import Pbft.Cluster.Waiting
import Pbft.Wire.Exactness
import Pbft.Node.Spoken
import Pbft.Node.Absorbed
import Pbft.Foundation.Schedule
import Pbft.Cluster.Quiescence
import Pbft.Node.Weight
import Pbft.Cluster.Progress
import Pbft.Node.Overtaken
import Pbft.Foundation.Scanner
import Pbft.KvStore
import Pbft.Foundation.Register
import Pbft.Foundation.Records
import Pbft.KvStore.Command
import Pbft.KvStore.Registers
import Pbft.KvStore.CheckpointText
import Pbft.Cluster.Answered
import Pbft.Cluster.Linear
import Pbft.KvStore.Replicated
import Pbft.Cluster.Halt
