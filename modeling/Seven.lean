import Seven.Belief.Attitudes
import Seven.Core.Laws
import Seven.Helix.Custody
import Seven.Helix.Lineage
import Seven.Mql.Budget
import Seven.Mql.Malformed
import Seven.Mql.Pipeline
import Seven.Mql.Socket
import Seven.Replay.Certify
import Seven.Replay.Futures
import Seven.Sim.Agreement
import Seven.Core.Range
import Seven.Core.Antipodes
import Seven.Belief.Posterior
import Seven.Belief.Band
import Seven.Belief.Counts
import Seven.Replay.Accepts
import Seven.Sim.Shuffle
import Seven.Sim.Noise
import Seven.Mql.HexText
import Seven.Belief.Rounded
import Seven.Belief.Filtered
import Seven.Mql.Relay
import Seven.Mql.Streams
import Seven.Replay.Slices
import Seven.Replay.State
import Seven.Replay.StreamHash
import Seven.Helix.Recovery
import Seven.Belief.Tolerance
