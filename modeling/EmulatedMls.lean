import EmulatedMls.Orchestrator.Acks
import EmulatedMls.Mls.CommitRecord
import EmulatedMls.Client.Convergence
import EmulatedMls.Client.EpochRecords
import EmulatedMls.Client.GroupCreation
import EmulatedMls.Client.LockedNet
import EmulatedMls.Client.Membership
import EmulatedMls.Tree.Authorisation
import EmulatedMls.Ds.TotalOrder
import EmulatedMls.Ds.Welcomes
import EmulatedMls.Ds.Observation
import EmulatedMls.Orchestrator.Reroll
import EmulatedMls.Secrets.KeyAgreement
import EmulatedMls.Tree.VerifiedHashes
import EmulatedMls.Tree.KeyedGroup
import EmulatedMls.Orchestrator.Committers
import EmulatedMls.Client.Desync
import EmulatedMls.Client.LogBuffer
import EmulatedMls.PubSub.Race
import EmulatedMls.PubSub.Kademlia
import EmulatedMls.Storage.Proposals
import EmulatedMls.Logs.DeepLog
import EmulatedMls.Tree.SelfUpdate
import EmulatedMls.Ds.Identity
import EmulatedMls.PubSub.UserHandlers
import EmulatedMls.Tree.Roster
