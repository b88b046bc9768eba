import CgroupMembership.Cell.Threads
import CgroupMembership.Id.Set
import CgroupMembership.Roster.Json
import CgroupMembership.Proofs.Path.Match
import CgroupMembership.Proofs.Entry.Fields
import CgroupMembership.Proofs.Id.Candidate
import CgroupMembership.Proofs.Path.Leaf
import CgroupMembership.Proofs.Search.Agreement
import CgroupMembership.Proofs.Stream.Decoded
import CgroupMembership.Proofs.Source.Content
import CgroupMembership.Proofs.Entry.RoundTrip
import CgroupMembership.Proofs.Roster.RoundTrip
import CgroupMembership.Proofs.Search.Prefix
import CgroupMembership.Proofs.Search.FirstMatch
import CgroupMembership.Proofs.Cell.WriteOnce
import CgroupMembership.Proofs.Cell.Together
import CgroupMembership.Proofs.Id.Canonical
import CgroupMembership.Proofs.Roster.Concat
import CgroupMembership.Proofs.Roster.Json
import CgroupMembership.Proofs.Path.Container
import CgroupMembership.Proofs.Path.Pod
import CgroupMembership.Proofs.Entry.Grammar
import CgroupMembership.Proofs.Id.Tail
import CgroupMembership.Proofs.Stream.Pieces
import CgroupMembership.Proofs.Id.Membership
import CgroupMembership.Proofs.Path.Uncut
