import DocSearch.DataView
import DocSearch.GatherResult
import DocSearch.Search
import DocSearch.Loading
import DocSearch.Navigator
import DocSearch.Incremental
import DocSearch.Acyclic
import DocSearch.Resolve
import DocSearch.Breadth
import DocSearch.Base85
import DocSearch.Escape
import DocSearch.Render
import DocSearch.Session
import DocSearch.Results
import DocSearch.StackPath
import DocSearch.Replay
